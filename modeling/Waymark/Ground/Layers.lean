import Waymark.Ground.Task

/-!
# Relaxed exploration

In the relaxation of a task facts are never deleted and negative conditions are ignored. A fact has
layer 0 if it holds initially, and layer `k + 1` if an action that needs only facts of layers up to
`k` is the first to add it.

* `Task.relaxedLayers`: the layer of each fact, while chosen actions are excluded;
* `Layers.reached`: a fact has a layer;
* `Task.pruned`: the task without the actions that need a fact without a layer.
-/

namespace Waymark.Ground

/-- For each fact the layer in which it is first reached. -/
abbrev Layers := Array (Option Nat)

/-- The fact has a layer. -/
def Layers.reached (layers : Layers) (fact : Nat) : Bool := (layers.getD fact none).isSome

/-- Puts facts without a layer into one. -/
def Layers.assign (layers : Layers) (depth : Nat) (facts : List Nat) : Layers :=
  facts.foldl (fun ls f => ls.modify f (·.or (some depth))) layers

namespace Action

variable {κ : Type}

/-- The facts that an action adds in the relaxation, once the facts it needs are reached. -/
def relaxedAdds (a : Action κ) (reached : Nat → Bool) : List Nat :=
  if a.needs.all reached then
    a.adds ++ (a.conditional.filter (·.needs.all reached)).flatMap (·.adds)
  else []

end Action

namespace Task

variable {κ : Type}

/-- The facts without a layer that some action which is not excluded adds next. -/
def newFacts (t : Task κ) (excluded : Array Bool) (layers : Layers) : List Nat :=
  t.actionNumbers.flatMap fun i =>
    if excluded.getD i false then []
    else match t.actions[i]? with
      | some a => (a.relaxedAdds layers.reached).filter (!layers.reached ·)
      | none => []

/-- Adds layers, the next one having number `depth`, until no action adds a fact. -/
def growLayers (t : Task κ) (excluded : Array Bool) : Nat → Nat → Layers → Layers
  | 0, _, layers => layers
  | rounds + 1, depth, layers =>
    match t.newFacts excluded layers with
    | [] => layers
    | facts => t.growLayers excluded rounds (depth + 1) (layers.assign depth facts)

/-- The layer of each fact while the actions marked in `excluded` are never taken. Every round but
the last reaches a fact, so there are at most as many rounds as facts, and one. -/
def relaxedLayers (t : Task κ) (excluded : Array Bool) : Layers :=
  t.growLayers excluded (t.facts.size + 1) 1
    (Layers.assign (Array.replicate t.facts.size none) 0 t.init)

/-- The task without the actions that need a fact which the relaxation does not reach. -/
def pruned (t : Task κ) : Task κ :=
  let layers := t.relaxedLayers #[]
  { t with actions := t.actions.filter fun a => a.needs.all layers.reached }

end Task

end Waymark.Ground
