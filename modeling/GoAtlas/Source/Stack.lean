import GoAtlas.Source.State
import GoAtlas.Source.Tree

/-!
# Stacks with several ways down

The readings of the text so far are kept together.  A node stands for a state at a place
in the text.  Its links lead down to the nodes before it, each through the tree that was
read in between, so a path from a node to the bottom is one reading of everything
before it.

Readings that come to the same place with the same prospects share a node.  Of two
trees for the same piece of text that lead to the same node, one is kept.
-/

namespace GoAtlas.Source

/-- A way from a node down to the one before it. -/
structure Link where
  /-- The number of the node before it. -/
  below : Nat
  /-- What was read in between. -/
  tree : Tree

/-- A state at a place in the text. -/
structure Node where
  state : State
  /-- How many characters lie before the place. -/
  offset : Nat
  /-- The text after the place. -/
  rest : List Char
  /-- The preference of the readings that lead here. -/
  preference : Int
  links : List Link

instance : Inhabited Node := ⟨⟨[], 0, [], 0, []⟩⟩

/-- Nodes by their numbers. -/
structure Nodes where
  nodes : Array Node

namespace Nodes

/-- The node with a number. -/
def get (nodes : Nodes) (id : Nat) : Node := nodes.nodes.getD id default

/-- The number of nodes. -/
def size (nodes : Nodes) : Nat := nodes.nodes.size

/-- Changes a node. -/
def modify (nodes : Nodes) (id : Nat) (change : Node → Node) : Nodes :=
  ⟨nodes.nodes.modify id change⟩

/-- Puts a new node on top of another one.  Gives the nodes and the number of the new
one. -/
def grow (nodes : Nodes) (below : Nat) (tree : Tree) (state : State) : Nodes × Nat :=
  let base := nodes.get below
  let id := nodes.size
  let node : Node :=
    { state
      offset := base.offset + tree.length
      rest := tree.extent.after
      preference := base.preference + tree.extent.preference
      links := [{ below, tree }] }
  (⟨nodes.nodes.push node⟩, id)

/-- How many links a node can have. -/
def maxLinks : Nat := 8

/-- Whether two nodes can become one. -/
def joinable (nodes : Nodes) (a b : Nat) : Bool :=
  (nodes.get a).offset == (nodes.get b).offset && (nodes.get a).state.joinable (nodes.get b).state

/-- Raises the preference of a node to that of a way down. -/
def raise (nodes : Nodes) (id : Nat) (link : Link) : Nodes :=
  let preference := (nodes.get link.below).preference + link.tree.extent.preference
  nodes.modify id fun node =>
    if node.preference < preference then { node with preference } else node

/-- Replaces the tree of a link by another one for the same text. -/
def replaceTree (nodes : Nodes) (id place : Nat) (link : Link) : Nodes :=
  let preference := (nodes.get link.below).preference + link.tree.extent.preference
  nodes.modify id fun node => { node with links := node.links.set place link, preference }

/-- Widens the state of a node by that of another one. -/
def widen (nodes : Nodes) (id other : Nat) : Nodes :=
  let state := (nodes.get other).state
  nodes.modify id fun node =>
    if node.state.same state then node else { node with state := node.state.join state }

/-- Adds a way down to a node.  If the same text already leads to the same node, the
preferred tree stays; if it leads to a node with which the lower node can be joined,
the lower nodes become one.  `depth` bounds how far down nodes are joined. -/
def addLink : (depth : Nat) → Nodes → (id : Nat) → Link → Nodes
  | 0, nodes, _, _ => nodes
  | depth + 1, nodes, id, link =>
      if link.below = id then nodes
      else
        let links := (nodes.get id).links
        let matching (known : Link) : Bool :=
          known.tree.alike link.tree &&
            (known.below == link.below || nodes.joinable known.below link.below)
        match links.findIdx? matching with
        | none =>
            if maxLinks ≤ links.length then nodes
            else
              (nodes.modify id fun node => { node with links := node.links ++ [link] }).raise
                id link
        | some place =>
            match links[place]? with
            | none => nodes
            | some known =>
                if known.below = link.below then
                  if known.tree.extent.preference < link.tree.extent.preference then
                    nodes.replaceTree id place link
                  else nodes
                else
                  let others := (nodes.get link.below).links
                  let nodes := nodes.widen known.below link.below
                  (others.foldl (fun nodes other => addLink depth nodes known.below other)
                    nodes).raise id link

/-- Joins a node into another one. -/
def joinNode (nodes : Nodes) (id other : Nat) : Nodes :=
  let links := (nodes.get other).links
  links.foldl (fun nodes link => nodes.addLink nodes.size id link) (nodes.widen id other)

/-! ## Ways down -/

/-- A way down that is being followed: the node it has reached, the trees on the way, and
how many of them still have to be found. -/
structure Descent where
  node : Nat
  trees : List Tree
  missing : Nat

/-- How many ways down are followed at the same time. -/
def maxDescents : Nat := 64

/-- Follows a way down along a link. -/
def Descent.follow (descent : Descent) (link : Link) : Descent :=
  { node := link.below
    trees := link.tree :: descent.trees
    missing := if link.tree.label.extra then descent.missing else descent.missing - 1 }

/-- Trees that lead down to the same node. -/
structure Landing where
  node : Nat
  /-- The trees of each way. -/
  ways : List (List Tree)

/-- Adds a way to the landing at the same node. -/
def addWay (node : Nat) (trees : List Tree) : List Landing → List Landing
  | [] => [{ node, ways := [trees] }]
  | landing :: rest =>
      if landing.node = node then { landing with ways := landing.ways ++ [trees] } :: rest
      else landing :: addWay node trees rest

/-- One link down for every way in `pending`.  The first link of a node continues the
way in its place and the others come after all ways, as long as there are fewer than
`maxDescents`; `count` is their number now. -/
def descend (nodes : Nodes) :
    (pending continued branched : List Descent) → (count : Nat) → List Landing →
      List Descent × List Landing
  | [], continued, branched, _, landings => (continued.reverse ++ branched.reverse, landings)
  | descent :: pending, continued, branched, count, landings =>
      if descent.missing = 0 then
        descend nodes pending continued branched (count - 1)
          (addWay descent.node descent.trees landings)
      else
        match (nodes.get descent.node).links with
        | [] => descend nodes pending continued branched (count - 1) landings
        | first :: others =>
            let room := others.take (maxDescents - count)
            descend nodes pending (descent.follow first :: continued)
              ((room.map descent.follow).reverse ++ branched) (count + room.length) landings

/-- Follows ways down until all have landed. -/
def land (nodes : Nodes) : (depth : Nat) → List Descent → List Landing → List Landing
  | 0, _, landings => landings
  | _, [], landings => landings
  | depth + 1, descents, landings =>
      let next := nodes.descend descents [] [] descents.length landings
      land nodes depth next.1 next.2

/-- The nodes that lie `count` trees below a node, with the trees on the ways to
them.  Comments are not counted. -/
def waysDown (nodes : Nodes) (id count : Nat) : List Landing :=
  nodes.land (nodes.size + 1) [{ node := id, trees := [], missing := count }] []

/-- All ways from a node to the bottom, each from the bottom up. -/
def toBottom (nodes : Nodes) : (depth : Nat) → (id : Nat) → (above : List Tree) → List (List Tree)
  | 0, _, _ => []
  | depth + 1, id, above =>
      match (nodes.get id).links with
      | [] => [above]
      | links => links.flatMap fun link => toBottom nodes depth link.below (link.tree :: above)

end Nodes

end GoAtlas.Source
