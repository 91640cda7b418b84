import Waymark.View.Traversal

/-!
# The selection view

Shows every landmark that splits the whole set of plans, with all its choices. Each selection keeps the
plans that make its choice; a selection that names no landmark answers the first landmark at which its
choice is possible. The plans that are left are sorted by their choices.
-/

namespace Waymark.View

variable {κ : Type}

/-- The landmarks that split the whole set of plans, in the order in which they are decided. -/
def Context.decisions (c : Context κ) : List Nat :=
  (c.traversal c.all .forward).filter fun id => c.isDecision id c.all

/-- The landmarks that a selection may answer. -/
def Context.answerable (c : Context κ) (s : Selection) : Except Failure (List Nat) :=
  match s.landmark with
  | none => .ok c.decisions
  | some id =>
    if c.decisions.contains id then .ok [id] else .error (.selection (.notADecision id))

/-- The plans that are left after a selection. -/
def Context.select (c : Context κ) (live : List Nat) (s : Selection) :
    Except Failure (List Nat) := do
  let landmarks ← c.answerable s
  let wanted := Plan.normalized s.achiever
  match landmarks.findSome? fun id => (c.groups id live).find? (·.key = wanted) with
  | some group => return c.restrict s.hashes group.plans
  | none => throw (.selection (.notAvailable s.achiever))

/-- The choices for a landmark, `live` being the plans that are left. -/
def Context.offers (c : Context κ) (live : List Nat) (landmark : Nat) : List Offer :=
  (c.groups landmark c.all).map fun g =>
    { landmark := some landmark
      step := none
      facts := c.facts landmark
      achiever := shown g.key
      hashes := g.plans.map c.hash
      isAvailable := g.plans.any live.contains }

/-- The choices that a plan makes for some landmarks. -/
def Context.signature (c : Context κ) (landmarks : List Nat) (plan : Nat) : List String :=
  landmarks.map fun id => c.achiever id plan

/-- Plans sorted by their choices for some landmarks and then by their digests. -/
def Context.sorted (c : Context κ) (landmarks live : List Nat) : List Nat :=
  let keyed := live.map fun p => (c.signature landmarks p ++ [c.hash p], p)
  (keyed.mergeSort fun x y => (compare x.1 y.1).isLE).map (·.2)

/-- The view of the plans that are left. -/
def Context.selectView (c : Context κ) (live : List Nat) : View κ :=
  let decisions := c.decisions
  let live := c.sorted decisions live
  let plans := c.plansAt live
  { kind := .selection
    status := .ofCount live.length
    plans
    offers := decisions.flatMap (c.offers live)
    selected := if live.length = 1 then plans.head?.bind (·.hash) else none
    tree := .ofPlans plans }

/-- The selection view of a request, none if its data do not belong together. -/
def select (r : Request κ) : Except Failure (Option (View κ)) := do
  let some c ← Context.prepare r | return none
  if c.plans.isEmpty then
    if r.selections.isEmpty then return some (noPlans .selection)
    else throw (.selection .noPlans)
  else return some (c.selectView (← r.selections.foldlM c.select c.all))

end Waymark.View
