import Waymark.Landmark.Graph
import Waymark.Plan.Tree
import Waymark.Planning.Problem

/-!
# Views of a set of plans

A user narrows a set of plans down to one by choosing, decision after decision, how a landmark is
achieved. A view shows the plans that are left, the choices, and the tree of the plans. Nothing is kept
between two views: each is computed from the task, the plans, the landmarks and all selections so far.

* `Request`: what a view is computed from;
* `Selection`: a choice that the user made;
* `Offer`: a choice that the user is shown;
* `View`: the answer.
-/

namespace Waymark

/-- A choice that the user made. -/
structure View.Selection where
  /-- The landmark that it was made for. Without one it answers the decision that is due. -/
  landmark : Option Nat := none
  /-- The step that it was made for. -/
  step : Option Nat := none
  /-- The action that was chosen. -/
  achiever : String
  /-- If not empty, all other plans are dropped. -/
  hashes : List String := []
  deriving DecidableEq, Repr, Inhabited

/-- A choice that the user is shown. -/
structure View.Offer where
  landmark : Option Nat
  step : Option Nat
  facts : List String
  achiever : String
  /-- The plans that make this choice. -/
  hashes : List String
  /-- One of these plans is left. -/
  isAvailable : Bool
  deriving DecidableEq, Repr, Inhabited

/-- What a view is computed from. -/
structure View.Request (κ : Type) where
  selections : List View.Selection := []
  landmarks : Landmark.Graph := {}
  task : Planning.TaskText := {}
  plans : List (Plan κ) := []

/-- The forms of views. -/
inductive View.Kind where
  | selection
  | buildForward
  | buildBackward
  deriving DecidableEq, Repr, Inhabited

/-- How far the choice has come. -/
inductive View.Status where
  /-- More than one plan is left. -/
  | choosing
  /-- One plan is left. -/
  | resolved
  /-- The selections leave no plan. -/
  | deadEnd
  /-- There were no plans. -/
  | noPlans
  deriving DecidableEq, Repr, Inhabited

/-- The plans that are left, and the choices among them. -/
structure View (κ : Type) where
  kind : View.Kind
  status : View.Status
  plans : List (Plan κ) := []
  offers : List View.Offer := []
  /-- The digest of the only plan that is left. -/
  selected : Option String := none
  tree : Plan.Tree := {}

namespace View

/-- The directions in which a plan is built. -/
inductive Direction where
  | forward
  | backward
  deriving DecidableEq, Repr

/-- The form of the view that builds in a direction. -/
def Direction.kind : Direction → Kind
  | .forward => .buildForward
  | .backward => .buildBackward

/-- The status when some number of plans is left. -/
def Status.ofCount : Nat → Status
  | 0 => .deadEnd
  | 1 => .resolved
  | _ => .choosing

/-- The view of no plans. -/
def noPlans {κ : Type} (kind : Kind) : View κ := { kind, status := .noPlans }

/-- What stands for the action of a plan that has ended. -/
def endOfPlan : String := "<end-of-plan>"

/-- What stands for the action of a plan that does not achieve a landmark. -/
def notAchieved : String := "<not-achieved>"

/-- An action as the user is shown it. -/
def shown (action : String) : String :=
  if action = endOfPlan || action = notAchieved then action else "(" ++ action ++ ")"

/-- A view, or the failure that the data it was asked of do not belong together. -/
def require {κ : Type} : Option (View κ) → Except Failure (View κ)
  | some view => .ok view
  | none => .error (.data .inconsistent)

end View

end Waymark
