import Waymark.Ground.Grounding
import Waymark.Landmark.Backchain
import Waymark.Landmark.Exhaustive
import Waymark.Landmark.Labels

/-!
# Extracting landmarks

Three methods find the landmarks of the relaxation of a task: backchaining, labels and exclusion. If the
relaxation does not reach the goal there is nothing to find.

* `Category`: the methods and their names;
* `extract`: the landmark graph of a ground task;
* `extractText`: the landmark graph of a task given as texts.
-/

namespace Waymark.Landmark

variable {κ : Type}

/-- The methods. -/
inductive Category where
  /-- By backchaining. -/
  | rhw
  /-- By labels. -/
  | zg
  /-- By exclusion. -/
  | exhaust
  deriving DecidableEq, Repr

/-- The name of a method. -/
def Category.name : Category → String
  | .rhw => "lm_rhw"
  | .zg => "lm_zg"
  | .exhaust => "lm_exhaust"

/-- The method that a text names, whatever its case. -/
def Category.read (text : String) : Except Failure Category :=
  match Text.lowercase (Text.trimmed text) with
  | "lm_rhw" | "rhw" => .ok .rhw
  | "lm_zg" | "zg" => .ok .zg
  | "lm_exhaust" | "exhaust" => .ok .exhaust
  | _ => .error (.unknownCategory text)

/-- The landmarks of a ground task. -/
def extract (task : Ground.Task κ) (category : Category) : Graph :=
  let s := Survey.of task
  if s.goalReached s.layers then
    s.finish <| match category with
      | .rhw => s.backchained
      | .zg => s.labelled
      | .exhaust => s.exhaustive
  else {}

/-- The landmarks of a task given as texts, by a method given by its name. A graph without a topological
order is refused. -/
def extractText (κ : Type) [Number.Scale κ] (task : Planning.TaskText) (category : String) :
    Except Failure Graph := do
  let category ← Category.read category
  task.requirePresent
  let ground : Ground.Task κ ← Ground.Task.ofText task
  let graph := extract ground category
  graph.validate
  return graph

end Waymark.Landmark
