import Waymark.Number.Double
import Waymark.Plan.External
import Waymark.Scenario.Store
import Waymark.Service.Options
import Waymark.Translation.Ranking

/-!
# The service

What the service works with, once it has started: a translator and its prompt, a planner, and the scenarios.

* `Environment`: what the service calls upon;
* `App.start`: the service that options describe.
-/

namespace Waymark.Service

open Number (Double)
open Translation (Translator)

/-- What the service calls upon: a model that completes prompts, and programs that plan. -/
structure Environment where
  complete : String → Except Failure (List String)
  launch : String → List String → Except String Plan.Run

/-- An environment in which nothing can be called upon. -/
def Environment.isolated : Environment where
  complete _ := .error (.translation (.other "no model can be reached"))
  launch _ _ := .error "no program can be run"

/-- The service. -/
structure App where
  translator : Translator Double
  prompt : Prompt
  planner : Planner Double
  store : Store

/-- Why the service does not start. -/
inductive StartFault where
  | noKey
  | noCommand
  | failed (failure : Failure)
  deriving DecidableEq, Repr

/-- The text of a start fault. -/
def StartFault.message : StartFault → String
  | .noKey => "OPENAI_API_KEY must be set for the openai translator"
  | .noCommand => "LEMMING_PLANNER_CMD must be set for the external planner"
  | .failed failure => failure.message

/-- The key for the model, if it is more than blanks. -/
def Options.key? (o : Options Double) : Option String :=
  o.apiKey.filter fun key => !Text.allBlank key

/-- The translator that options choose. -/
def Options.buildTranslator (o : Options Double) (env : Environment) :
    Except StartFault (Translator Double) :=
  let model : Translator Double := .sampled "openai" env.complete
  match o.translator, o.key? with
  | .cue, _ | .auto, none => .ok .cuePhrases
  | .auto, some _ | .openai, some _ => .ok model
  | .openai, none => .error .noKey

/-- The planner that options choose. -/
def Options.buildPlanner (o : Options Double) (env : Environment) :
    Except StartFault (Planner Double) :=
  match o.planner, o.plannerCommand with
  | .grounded, _ => .ok (.grounded o.bounds)
  | .external, none => .error .noCommand
  | .external, some line => do
    let command ← (Plan.Command.read line).mapError StartFault.failed
    return .external command o.bounds env.launch

/-- The prompt that options choose: that of a scenario, or the usual one. -/
def Options.buildPrompt (o : Options Double) (store : Store) : Except StartFault Prompt :=
  match o.promptScenario with
  | none => .ok {}
  | some name => (store.prompt name).mapError StartFault.failed

/-- The service that options describe. -/
def App.start (o : Options Double) (env : Environment) (store : Store) : Except StartFault App := do
  let prompt ← o.buildPrompt store
  let translator ← o.buildTranslator env
  let planner ← o.buildPlanner env
  return { translator, prompt, planner, store }

end Waymark.Service
