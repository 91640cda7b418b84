import Waymark.Ground.FactTable
import Waymark.Ground.State

/-!
# Ground tasks

A ground task has numbered facts, ground actions with conditional effects, the facts that hold
initially, and a goal of facts that must and facts that must not hold. Costs are numbers of any scale.

* `Action.applicable`, `Action.apply`: when an action can be taken, and what it does;
* `Task.isGoal`: when a state satisfies the goal;
* `Task.achievers`: the actions that may make a fact true.
-/

namespace Waymark.Ground

/-- An effect that takes place if its condition holds before the action. -/
structure ConditionalEffect where
  needs : List Nat
  forbids : List Nat
  adds : List Nat
  deletes : List Nat
  deriving DecidableEq, Repr, Inhabited

/-- A ground action, named by its schema and its arguments. -/
structure Action (κ : Type) where
  name : String
  needs : List Nat
  forbids : List Nat
  adds : List Nat
  deletes : List Nat
  conditional : List ConditionalEffect
  cost : κ
  deriving Inhabited

/-- A ground task. -/
structure Task (κ : Type) where
  facts : FactTable
  init : List Nat
  actions : Array (Action κ)
  goalNeeds : List Nat
  goalForbids : List Nat
  deriving Inhabited

/-- The condition of an effect holds. -/
def ConditionalEffect.fires (e : ConditionalEffect) (s : State) : Bool :=
  s.containsAll e.needs && s.containsNone e.forbids

namespace Action

variable {κ : Type}

/-- The precondition holds. -/
def applicable (a : Action κ) (s : State) : Bool :=
  s.containsAll a.needs && s.containsNone a.forbids

/-- The effects that fire in a state. -/
def fired (a : Action κ) (s : State) : List ConditionalEffect := a.conditional.filter (·.fires s)

/-- The facts that an action deletes in a state. -/
def deletedIn (a : Action κ) (s : State) : List Nat := a.deletes ++ (a.fired s).flatMap (·.deletes)

/-- The facts that an action adds in a state. -/
def addedIn (a : Action κ) (s : State) : List Nat := a.adds ++ (a.fired s).flatMap (·.adds)

/-- The state after an action. Deletes come before adds. -/
def apply (a : Action κ) (s : State) : State :=
  (a.addedIn s).foldl State.insert ((a.deletedIn s).foldl State.erase s)

/-- Some effect adds the fact, be it under a condition. -/
def mayAdd (a : Action κ) (fact : Nat) : Bool :=
  a.adds.contains fact || a.conditional.any (·.adds.contains fact)

end Action

namespace Task

variable {κ : Type}

/-- The state in which the initial facts hold. -/
def initialState (t : Task κ) : State := State.ofFacts t.facts.size t.init

/-- The goal holds. -/
def isGoal (t : Task κ) (s : State) : Bool :=
  s.containsAll t.goalNeeds && s.containsNone t.goalForbids

/-- The fact holds initially. -/
def isInitial (t : Task κ) (fact : Nat) : Bool := t.init.contains fact

/-- The numbers of the actions. -/
def actionNumbers (t : Task κ) : List Nat := List.range t.actions.size

/-- The actions that may make one of the facts true. -/
def adders (t : Task κ) (facts : List Nat) : List Nat :=
  t.actionNumbers.filter fun i => match t.actions[i]? with
    | some a => facts.any a.mayAdd
    | none => false

/-- The actions that may make the fact true. -/
def achievers (t : Task κ) (fact : Nat) : List Nat := t.adders [fact]

/-- The name of an action. -/
def actionName (t : Task κ) (action : Nat) : String := (t.actions[action]?.map Action.name).getD ""

end Task

end Waymark.Ground
