import Waymark.Ground.Grounding
import Waymark.Plan.Basic
import Waymark.Plan.Frontier

/-!
# Top-quality search

Enumerates the plans of a ground task in the order of their cost. Every node of the search is a sequence
of actions that visits no state twice, and nodes are looked at cheapest first, so goals are met in the
order of cost. Sequences that meet in one state are kept apart: the end of one says nothing about the
other. A sequence is not continued beyond its first goal.

* `Bounds`: how good, how many, and how long;
* `search`: the plans, and why the search ended;
* `searchText`: the plans of a task given as texts.
-/

namespace Waymark.Plan

open Ground Number

variable {κ : Type}

/-- Bounds on a search. -/
structure Bounds (κ : Type) where
  /-- Plans may cost this many times as much as the best one. -/
  quality : κ
  /-- The number of plans that are enough. -/
  maxPlans : Nat
  /-- The number of nodes that are continued before the search gives up. -/
  maxExpansions : Nat

/-- The bounds that hold if none are given. -/
def Bounds.usual [Scale κ] : Bounds κ := ⟨Scale.ofNat 1, 10, 200000⟩

/-- How many times the best cost a plan may cost. It is at least one. -/
def Bounds.factor [Scale κ] (b : Bounds κ) : κ :=
  if Scale.isFinite b.quality then Scale.max b.quality (Scale.ofNat 1) else Scale.ofNat 1

/-- What costs may differ by and still count as equal. -/
def tolerance [Scale κ] : κ := Scale.ofQuotient 1 1000000000

/-- The cost is beyond the bound that the best cost sets. -/
def Bounds.excludes [Scale κ] (b : Bounds κ) (best cost : κ) : Bool :=
  Scale.lt (Scale.add (Scale.mul best b.factor) tolerance) cost

/-- The cost is within the bound that the best cost sets. -/
def Bounds.admits [Scale κ] (b : Bounds κ) (best cost : κ) : Bool :=
  Scale.le cost (Scale.add (Scale.mul best b.factor) tolerance)

/-- A sequence of actions: the state that it leads to, the states before, and its actions, the last one
first. -/
structure Node where
  state : State
  before : List State
  actions : List Nat

/-- The states on the way of a node. -/
def Node.states (n : Node) : List State := n.state :: n.before

/-- The nodes that continue a node by one action, without returning to a state, with their costs. -/
def successors [Scale κ] (t : Ground.Task κ) (cost : κ) (n : Node) : List (κ × Node) :=
  t.actionNumbers.filterMap fun i => match t.actions[i]? with
    | some a =>
      if a.applicable n.state then
        let next := a.apply n.state
        if n.states.contains next then none
        else some (Scale.add cost a.cost, ⟨next, n.states, i :: n.actions⟩)
      else none
    | none => none

/-- Why a search ended. -/
inductive Ending where
  /-- Nothing is left to look at. -/
  | exhausted
  /-- All that is left is beyond the bound. -/
  | beyondBound
  /-- Enough plans are found. -/
  | enough
  /-- The limit of expansions is reached. -/
  | limit
  deriving DecidableEq, Repr

/-- What a search has to look at, and how many entries it has met. -/
structure Agenda (κ : Type) where
  frontier : Frontier κ Node
  arrivals : Nat

/-- Adds nodes to an agenda. -/
def Agenda.pushAll [Scale κ] (agenda : Agenda κ) (nodes : List (κ × Node)) : Agenda κ :=
  nodes.foldl (fun g (cost, n) => ⟨g.frontier.push ⟨cost, g.arrivals, n⟩, g.arrivals + 1⟩) agenda

/-- The plan of a node. -/
def Node.plan (t : Ground.Task κ) (cost : κ) (n : Node) : Plan κ :=
  { actions := n.actions.reverse.map t.actionName, cost }

/-- Searches on while `plans` more plans are wanted and `expansions` more nodes may be continued. -/
def searchFrom [Scale κ] (t : Ground.Task κ) (b : Bounds κ) (plans expansions : Nat) (best : Option κ)
    (agenda : Agenda κ) : List (Plan κ) × Ending :=
  match plans with
  | 0 => ([], .enough)
  | plans + 1 =>
    match agenda.frontier.pop? with
    | none => ([], .exhausted)
    | some (entry, frontier) =>
      if best.any fun best => b.excludes best entry.cost then ([], .beyondBound)
      else if t.isGoal entry.item.state then
        let (found, ending) :=
          searchFrom t b plans expansions (best.or (some entry.cost)) { agenda with frontier }
        (entry.item.plan t entry.cost :: found, ending)
      else match expansions with
        | 0 => ([], .limit)
        | expansions + 1 =>
          searchFrom t b (plans + 1) expansions best
            (Agenda.pushAll { agenda with frontier } (successors t entry.cost entry.item))
termination_by plans + expansions

/-- The node that the search starts from. -/
def Node.start (t : Ground.Task κ) : Node := ⟨t.initialState, [], []⟩

/-- The plans of a ground task within the bounds, cheapest first, and why there are no more. -/
def search [Scale κ] (t : Ground.Task κ) (b : Bounds κ) : List (Plan κ) × Ending :=
  searchFrom t b b.maxPlans b.maxExpansions none
    (Agenda.pushAll ⟨.empty, 0⟩ [(Scale.ofNat 0, .start t)])

/-- The plans of a task given as texts. -/
def searchText [Scale κ] (b : Bounds κ) (task : Planning.TaskText) :
    Except Failure (List (Plan κ)) := do
  let t : Ground.Task κ ← Ground.Task.ofText task
  return (search t b).1

end Waymark.Plan
