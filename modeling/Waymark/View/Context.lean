import Waymark.View.Basic

/-!
# The context of a view

The plans and the landmarks of a request, checked against its task: the landmarks form an order, the
digests of the plans are right, and every action is one of the domain. Each plan is then known by its
place, and for each landmark it makes a choice: the first of its actions that achieves the landmark.

* `Context.prepare`: the context of a request, none if its data do not belong together;
* `Context.achiever`: the choice of a plan;
* `Context.groups`: plans by their choices.
-/

namespace Waymark.View

open Planning

variable {κ : Type}

/-- The first action of a plan that achieves a landmark, and its position. -/
abbrev Choice := Option (String × Nat)

/-- What a view works on. -/
structure Context (κ : Type) where
  plans : Array (Plan κ)
  graph : Landmark.Graph
  /-- For each landmark the choice of each plan. -/
  choices : List (Nat × Array Choice)

/-! ## Checking a request -/

/-- The action names a schema of the domain and has as many arguments. -/
def belongs (domain : Domain) (action : String) : Bool :=
  match Plan.actionWords action with
  | [] => false
  | name :: args => (domain.schema? name).any (·.params.length = args.length)

/-- The digest that a plan claims, if any, is right, and its actions are actions of the domain. -/
def isSound (domain : Domain) (p : Plan κ) : Bool :=
  p.hash.all (· = Plan.fingerprint p.actions) && p.actions.all (belongs domain)

/-- The actions that achieve a landmark are actions of the domain. -/
def isKnown (domain : Domain) (l : Landmark) : Bool :=
  l.possibleAchievers.all (belongs domain) && l.firstAchievers.all (belongs domain)

/-! ## Choices -/

/-- The actions that achieve a landmark. -/
def achieversOf (l : Landmark) : List String :=
  (if l.possibleAchievers.isEmpty then l.firstAchievers else l.possibleAchievers).map
    Plan.normalized

/-- The first of some actions that is among the achievers, `position` being that of the first. -/
def firstAmong (achievers : List String) (position : Nat) : List String → Choice
  | [] => none
  | action :: rest =>
    let action := Plan.normalized action
    if achievers.contains action then some (action, position)
    else firstAmong achievers (position + 1) rest

/-- The choices of plans for a landmark. -/
def choicesFor (plans : Array (Plan κ)) (l : Landmark) : Nat × Array Choice :=
  let achievers := achieversOf l
  (l.id, plans.map fun p => firstAmong achievers 0 p.actions)

/-- The context of a request, none if its landmarks or plans do not belong to its task. -/
def Context.prepare (r : Request κ) : Except Failure (Option (Context κ)) := do
  r.task.requirePresent
  let domain ← Domain.read r.task.domain
  if r.landmarks.validate.toOption.isSome && r.plans.all (isSound domain) &&
      r.landmarks.landmarks.all (isKnown domain) then
    let plans := (Plan.distinct r.plans).toArray
    return some ⟨plans, r.landmarks, r.landmarks.landmarks.map (choicesFor plans)⟩
  else return none

namespace Context

variable (c : Context κ)

/-- The places of all plans. -/
def all : List Nat := List.range c.plans.size

/-- The actions of a plan. -/
def actions (plan : Nat) : List String := (c.plans[plan]?.map (·.actions)).getD []

/-- The digest of a plan. -/
def hash (plan : Nat) : String := (c.plans[plan]?.bind (·.hash)).getD ""

/-- The plans at some places. -/
def plansAt (places : List Nat) : List (Plan κ) := places.filterMap fun i => c.plans[i]?

/-- The choice of a plan for a landmark. -/
def choice (landmark plan : Nat) : Choice :=
  ((c.choices.lookup landmark).bind (·[plan]?)).join

/-- The action by which a plan achieves a landmark. -/
def achiever (landmark plan : Nat) : String :=
  ((c.choice landmark plan).map (·.1)).getD notAchieved

/-- The facts of a landmark. -/
def facts (landmark : Nat) : List String := ((c.graph.find? landmark).map (·.facts)).getD []

/-- Keeps the plans of some digests, or all plans if there are none. -/
def restrict (hashes : List String) (live : List Nat) : List Nat :=
  if hashes.isEmpty then live else live.filter fun p => hashes.contains (c.hash p)

end Context

/-! ## Groups -/

/-- Things with one key. -/
structure Group where
  key : String
  plans : List Nat
  deriving DecidableEq, Repr

/-- Plans by a key, the keys in ascending order. -/
def groupBy (key : Nat → String) (plans : List Nat) : List Group :=
  let keys := ((plans.map key).mergeSort fun x y => !(y < x)).eraseReps
  keys.map fun k => ⟨k, plans.filter fun p => key p == k⟩

/-- Plans by their choices for a landmark. -/
def Context.groups (c : Context κ) (landmark : Nat) (plans : List Nat) : List Group :=
  groupBy (c.achiever landmark) plans

/-- The choices for a landmark split the plans. -/
def Context.isDecision (c : Context κ) (landmark : Nat) (plans : List Nat) : Bool :=
  (c.groups landmark plans).length ≥ 2

end Waymark.View
