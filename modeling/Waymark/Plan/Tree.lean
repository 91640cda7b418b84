import Waymark.Plan.Basic

/-!
# Plan trees

Plans that begin alike share a path from the root of a tree. Every node and every edge lists the plans
that pass through it. With the actions taken from the end, plans that end alike share a path.

* `Tree.insert`: the tree with one more plan;
* `Tree.ofPlans`: the tree of the beginnings of plans;
* `Tree.ofReversed`: the tree of their ends.
-/

namespace Waymark.Plan

/-- A node: a sequence of first actions. -/
structure TreeNode where
  id : Nat
  /-- The number of actions from the root. -/
  depth : Nat
  /-- The digests of the plans that pass through. -/
  hashes : List String
  /-- A plan ends here. -/
  isTerminal : Bool
  deriving DecidableEq, Repr, Inhabited

/-- An edge: one more action. -/
structure TreeEdge where
  source : Nat
  target : Nat
  action : String
  hashes : List String
  deriving DecidableEq, Repr, Inhabited

/-- A tree of plans. The root is node 0, and a tree without plans has no nodes. -/
structure Tree where
  nodes : Array TreeNode := #[]
  edges : Array TreeEdge := #[]
  deriving DecidableEq, Repr, Inhabited

namespace Tree

/-- The edge by which an action leaves a node. -/
def edgeFrom? (t : Tree) (node : Nat) (action : String) : Option Nat :=
  t.edges.findIdx? fun e => e.source = node && normalized e.action == normalized action

/-- Adds a digest to a node. -/
def visit (t : Tree) (node : Nat) (hash : String) : Tree :=
  { t with nodes := t.nodes.modify node fun n => { n with hashes := n.hashes ++ [hash] } }

/-- Goes on from a node by an action, on a new edge if there is none, and adds a digest to what it
passes. -/
def advance (t : Tree) (node : Nat) (action hash : String) : Tree × Nat :=
  match t.edgeFrom? node action with
  | some edge =>
    let child := (t.edges.getD edge default).target
    let t := { t with edges := t.edges.modify edge fun e => { e with hashes := e.hashes ++ [hash] } }
    (t.visit child hash, child)
  | none =>
    let child := t.nodes.size
    let depth := (t.nodes.getD node default).depth + 1
    ({ nodes := t.nodes.push ⟨child, depth, [hash], false⟩
       edges := t.edges.push ⟨node, child, action, [hash]⟩ }, child)

/-- Follows actions from a node, and marks the node where they end. -/
def follow (t : Tree) (node : Nat) (hash : String) : List String → Tree
  | [] => { t with nodes := t.nodes.modify node fun n => { n with isTerminal := true } }
  | action :: rest =>
    let (t, child) := t.advance node action hash
    t.follow child hash rest

/-- The tree with its root. -/
def withRoot (t : Tree) : Tree :=
  if t.nodes.isEmpty then { t with nodes := #[⟨0, 0, [], false⟩] } else t

/-- The tree with one more plan. -/
def insert (t : Tree) (hash : String) (actions : List String) : Tree :=
  (t.withRoot.visit 0 hash).follow 0 hash actions

variable {κ : Type}

/-- The tree of the beginnings of plans. -/
def ofPlans (plans : List (Plan κ)) : Tree :=
  plans.foldl (fun t p => t.insert (p.hash.getD "") p.actions) {}

/-- The tree of the ends of plans. -/
def ofReversed (plans : List (Plan κ)) : Tree :=
  plans.foldl (fun t p => t.insert (p.hash.getD "") p.actions.reverse) {}

end Tree

end Waymark.Plan
