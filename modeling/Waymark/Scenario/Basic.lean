import Waymark.Encoding.Compile
import Waymark.Plan.Search
import Waymark.Translation.Basic

/-!
# Scenarios

A scenario is a planning task with plans for it and with the sentences that its goal was built from. A
planner is anything that finds plans for a task.

* `Planner.plans`: the plans that a planner finds, each once and with its digest;
* `Planner.solve`: the scenario of a task into which formulas are compiled.
-/

namespace Waymark

/-- A planning task, plans for it, and sentences about it. -/
structure Scenario (κ : Type) where
  task : Planning.TaskText
  plans : List (Plan κ) := []
  prompts : List Translation := []

/-- Something that finds plans for tasks. A task without plans is no failure. -/
structure Planner (κ : Type) where
  name : String
  search : Planning.TaskText → Except Failure (List (Plan κ))

namespace Planner

variable {κ : Type}

/-- The planner that searches the ground task. -/
def grounded [Number.Scale κ] (b : Plan.Bounds κ) : Planner κ := ⟨"grounded-topq", Plan.searchText b⟩

/-- The plans that a planner finds, each once and with its digest. -/
def plans (planner : Planner κ) (task : Planning.TaskText) : Except Failure (List (Plan κ)) := do
  task.requirePresent
  return Plan.distinct (← planner.search task)

/-- Compiles formulas into a task and plans for the result. The formulas are kept as prompts. -/
def solve (planner : Planner κ) (task : Planning.TaskText)
    (formulas : List (Translation.Candidate κ)) (tool : Encoding.Tool) :
    Except Failure (Scenario κ) := do
  let compiled ← Encoding.compileText task (formulas.map (·.formula)) tool
  let plans ← planner.plans compiled
  return { task := compiled, plans, prompts := formulas.map (·.accept) }

end Planner

end Waymark
