import Waymark.View.Traversal

/-!
# The build views

Shows one decision at a time. A decision is the first landmark that splits the plans which are left, or,
when none does, the first step at which they differ; going backward, landmarks and steps are taken from
the end. Each selection answers the decision that is due, and nothing can be selected once at most one
plan is left.

* `Decision`: what is due, with its choices;
* `Context.due`: the decision that is due;
* `Context.answer`: the plans that are left after a selection;
* `build`: the view.
-/

namespace Waymark.View

variable {κ : Type}

/-- What a decision is about. -/
inductive Subject where
  | landmark (id : Nat)
  | step (step : Nat)
  | nothing
  deriving DecidableEq, Repr

/-- A decision with its choices. -/
structure Decision where
  subject : Subject
  options : List Group
  deriving DecidableEq, Repr

/-- The landmark of a decision. -/
def Subject.landmark? : Subject → Option Nat
  | .landmark id => some id
  | _ => none

/-- The step of a decision. -/
def Subject.step? : Subject → Option Nat
  | .step n => some n
  | _ => none

/-- The text of a decision. -/
def Subject.describe : Subject → String
  | .landmark id => s!"landmark {id}"
  | .step n => s!"step {n}"
  | .nothing => "no decision"

/-- The action of a plan at a step, counted from the direction in which the plan is built. -/
def actionAt (d : Direction) (actions : List String) (step : Nat) : String :=
  match (match d with
    | .forward => actions[step]?
    | .backward => actions.reverse[step]?) with
  | some action => Plan.normalized action
  | none => endOfPlan

/-- The plans by their actions at a step. -/
def Context.groupsAt (c : Context κ) (d : Direction) (live : List Nat) (step : Nat) : List Group :=
  groupBy (fun p => actionAt d (c.actions p) step) live

/-- The first step at which plans differ. -/
def Context.stepDecision (c : Context κ) (d : Direction) (live : List Nat) : Decision :=
  let longest := (live.map fun p => (c.actions p).length).max?.getD 0
  match (List.range (longest + 1)).find? fun step => (c.groupsAt d live step).length ≥ 2 with
  | some step => ⟨.step step, c.groupsAt d live step⟩
  | none => ⟨.nothing, []⟩

/-- The decision that is due. The choices of a landmark are those of all plans, so that choices which
are no longer possible stay visible. -/
def Context.due (c : Context κ) (d : Direction) (live : List Nat) : Decision :=
  match (c.traversal live d).find? fun id => c.isDecision id live with
  | some id => ⟨.landmark id, c.groups id c.all⟩
  | none => c.stepDecision d live

/-- What a selection names agrees with what is due: it names nothing, or the same. -/
def agrees (due given : Option Nat) : Bool := given.isNone || due = given

/-- The choice by which a selection answers a decision. -/
def Decision.choose (decision : Decision) (s : Selection) : Except Failure Group :=
  let subject := decision.subject
  if agrees subject.landmark? s.landmark && agrees subject.step? s.step then
    let wanted := Plan.normalized s.achiever
    match decision.options.find? (·.key = wanted) with
    | some group => .ok group
    | none => .error (.selection (.notAChoice s.achiever subject.describe))
  else .error (.selection (.otherDecision subject.describe))

/-- The plans that are left after a selection. -/
def Context.answer (c : Context κ) (d : Direction) (live : List Nat) (s : Selection) :
    Except Failure (List Nat) := do
  let group ← (c.due d live).choose s
  return c.restrict s.hashes (live.filter group.plans.contains)

/-- The plans that are left after some selections, the first of which has number `round`. -/
def Context.replay (c : Context κ) (d : Direction) (round : Nat) (live : List Nat) :
    List Selection → Except Failure (List Nat)
  | [] => .ok live
  | s :: rest =>
    if live.length ≤ 1 then .error (.selection (.flowEnded round))
    else do c.replay d (round + 1) (← c.answer d live s) rest

/-- The choices of a decision, `live` being the plans that are left. -/
def Context.offersOf (c : Context κ) (live : List Nat) (decision : Decision) : List Offer :=
  decision.options.map fun g =>
    { landmark := decision.subject.landmark?
      step := decision.subject.step?
      facts := (decision.subject.landmark?.map c.facts).getD []
      achiever := shown g.key
      hashes := g.plans.map c.hash
      isAvailable := g.plans.any live.contains }

/-- The view of the plans that are left. -/
def Context.buildView (c : Context κ) (d : Direction) (live : List Nat) : View κ :=
  let plans := c.plansAt live
  { kind := d.kind
    status := .ofCount live.length
    plans
    offers := if live.length ≥ 2 then c.offersOf live (c.due d live) else []
    selected := if live.length = 1 then plans.head?.bind (·.hash) else none
    tree := match d with
      | .forward => .ofPlans plans
      | .backward => .ofReversed plans }

/-- The build view of a request, none if its data do not belong together. -/
def build (r : Request κ) (d : Direction) : Except Failure (Option (View κ)) := do
  let some c ← Context.prepare r | return none
  if c.plans.isEmpty then
    if r.selections.isEmpty then return some (noPlans d.kind)
    else throw (.selection .noPlans)
  else return some (c.buildView d (← c.replay d 0 c.all r.selections))

end Waymark.View
