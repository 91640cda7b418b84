import Waymark.Scenario.Basic
import Waymark.Wire.Plan
import Waymark.Wire.Translation

/-!
# Scenarios in JSON

* `Scenario.encode`: a task with its plans and its prompts.
-/

namespace Waymark

open Json
open Number (Double)

/-- Writes a scenario. -/
def Scenario.encode (s : Scenario Double) : Json :=
  .object [("planning_task", s.task.encode), ("plans", Plan.encodeAll s.plans),
    ("nl_prompts", ofList Translation.encode s.prompts)]

end Waymark
