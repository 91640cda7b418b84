import Waymark.Plan.Tree
import Waymark.Planning.Problem
import Waymark.Wire.Number

/-!
# Plans and tasks in JSON

* `Plan.decode`, `Plan.encode`: plans;
* `Planning.TaskText.decode`, `Planning.TaskText.encode`: planning tasks;
* `Plan.Tree.encode`: plan trees.
-/

namespace Waymark

open Json Decoder
open Number (Double)

/-- Reads a plan. A cost that is not given is zero. -/
def Plan.decode : Decoder (Plan Double) :=
  record { actions := [], cost := .number 0 } [
    field "actions" .required (list text) fun p x => { p with actions := x },
    field "cost" .defaulted Double.decode fun p x => { p with cost := x },
    field "hash" .defaulted (optional text) fun p x => { p with hash := x }]

/-- Writes a plan. -/
def Plan.encode (p : Plan Double) : Json :=
  .object [("actions", ofList .text p.actions), ("cost", p.cost.encode),
    ("hash", ofOption .text p.hash)]

/-- Writes plans. -/
def Plan.encodeAll (plans : List (Plan Double)) : Json := ofList Plan.encode plans

/-- Reads a planning task. A text that is not given is empty. -/
def Planning.TaskText.decode : Decoder Planning.TaskText :=
  record {} [
    field "domain" .defaulted text fun t x => { t with domain := x },
    field "problem" .defaulted text fun t x => { t with problem := x }]

/-- Writes a planning task. -/
def Planning.TaskText.encode (t : Planning.TaskText) : Json :=
  .object [("domain", .text t.domain), ("problem", .text t.problem)]

/-- Writes a node of a plan tree. -/
def Plan.TreeNode.encode (n : Plan.TreeNode) : Json :=
  .object [("id", ofNat n.id), ("depth", ofNat n.depth), ("plan_hashes", ofList .text n.hashes),
    ("is_terminal", .bool n.isTerminal)]

/-- Writes an edge of a plan tree. -/
def Plan.TreeEdge.encode (e : Plan.TreeEdge) : Json :=
  .object [("from", ofNat e.source), ("to", ofNat e.target), ("action", .text e.action),
    ("plan_hashes", ofList .text e.hashes)]

/-- Writes a plan tree. -/
def Plan.Tree.encode (t : Plan.Tree) : Json :=
  .object [("nodes", ofList Plan.TreeNode.encode t.nodes.toList),
    ("edges", ofList Plan.TreeEdge.encode t.edges.toList)]

end Waymark
