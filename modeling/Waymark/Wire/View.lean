import Waymark.View.Basic
import Waymark.Wire.Landmark
import Waymark.Wire.Plan

/-!
# Views in JSON

* `View.Request.decode`: what a view is asked of;
* `View.encode`: the view.
-/

namespace Waymark.View

open Json Decoder
open Number (Double)

/-- Reads a choice that the user made. -/
def Selection.decode : Decoder Selection :=
  record { achiever := "" } [
    field "landmark_id" .defaulted (optional count) fun s x => { s with landmark := x },
    field "step" .defaulted (optional count) fun s x => { s with step := x },
    field "selected_first_achiever" .required text fun s x => { s with achiever := x },
    field "selected_plan_hashes" .defaulted (list text) fun s x => { s with hashes := x }]

/-- Reads what a view is asked of. -/
def Request.decode : Decoder (Request Double) :=
  record {} [
    field "selection_infos" .defaulted (list Selection.decode) fun r x => { r with selections := x },
    field "landmarks" .defaulted Landmark.Graph.decode fun r x => { r with landmarks := x },
    field "domain" .defaulted text fun r x => { r with task.domain := x },
    field "problem" .defaulted text fun r x => { r with task.problem := x },
    field "plans" .defaulted (list Plan.decode) fun r x => { r with plans := x }]

/-- The word for a form of views. -/
def Kind.word : Kind → String
  | .selection => "selection"
  | .buildForward => "build_forward"
  | .buildBackward => "build_backward"

/-- The word for a status. -/
def Status.word : Status → String
  | .choosing => "choosing"
  | .resolved => "resolved"
  | .deadEnd => "dead_end"
  | .noPlans => "no_plans"

/-- Writes a choice that the user is shown. -/
def Offer.encode (o : Offer) : Json :=
  .object [("landmark_id", ofOption ofNat o.landmark), ("step", ofOption ofNat o.step),
    ("facts", ofList .text o.facts), ("first_achiever", .text o.achiever),
    ("plan_hashes", ofList .text o.hashes), ("is_available_for_choice", .bool o.isAvailable)]

/-- Writes a view. -/
def encode (v : View Double) : Json :=
  .object [("view", .text v.kind.word), ("status", .text v.status.word),
    ("plans", Plan.encodeAll v.plans), ("choice_infos", ofList Offer.encode v.offers),
    ("selected_plan_hash", ofOption .text v.selected), ("plan_graph", v.tree.encode)]

end Waymark.View
