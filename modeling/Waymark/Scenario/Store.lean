import Waymark.Files
import Waymark.Translation.Prompt
import Waymark.Wire.Scenario

/-!
# Scenario stores

A store keeps one scenario per directory: `domain.pddl` and `problem.pddl`, and if they are there and can be
read, `plans.json` and `prompt.json`. Clients name a scenario by its directory, or files by their paths,
which must not lead out of the store.

* `Store.names`: the scenarios;
* `Store.load`, `Store.prompt`: a scenario, and its prompt;
* `Store.resolve`, `Store.readTask`: files by their paths.
-/

namespace Waymark

open Number (Double)

/-- Files with one scenario per directory. -/
structure Store where
  /-- How the root is shown. -/
  root : String
  files : Files

namespace Store

/-- The name of the file that holds the domain. -/
def domainFile : String := "domain.pddl"

/-- The name of the file that holds the problem. -/
def problemFile : String := "problem.pddl"

/-- The name of the file that holds plans. -/
def plansFile : String := "plans.json"

/-- The name of the file that holds the prompt. -/
def promptFile : String := "prompt.json"

/-- The text of a path. -/
def display (s : Store) (path : Path) : String := "/".intercalate (s.root :: path)

/-- The directories that hold a domain, in ascending order. -/
def names (s : Store) : List String := s.files.names.filter fun n => s.files.isFile [n, domainFile]

/-! ## Scenarios by name -/

/-- The name may be that of a scenario: it names something directly below the root that is not hidden. -/
def isScenarioName (name : String) : Bool :=
  !Text.allBlank name && name.toList.head? ≠ some '.' &&
    name.toList.all fun c => c ≠ '/' && c ≠ '\\' && c ≠ Char.ofNat 0

/-- Refuses what cannot be the name of a scenario. -/
def requireScenarioName (name : String) : Except Failure Unit :=
  if isScenarioName name then .ok () else .error (.input (.scenarioName name))

/-- The text of a file that must be there. `names` lead to it from the root. -/
def readRequired (s : Store) (names : Path) : Except Failure String :=
  match (do s.files.readText (← s.files.walk [] names)) with
  | .ok text => .ok text
  | .error .missing => .error (.notFound (s.display names))
  | .error .unusable => .error (.file (s.display names))

/-- The text of a file that may be there. -/
def readOptional (s : Store) (names : Path) : Option String := (s.readRequired names).toOption

/-- The plans that a text holds: a list, or an object with a list. -/
def plansIn (text : String) : Option (List (Plan Double)) := do
  let value ← Json.parse? text
  let list := Json.Decoder.list Plan.decode
  let wrapped : Json.Decoder (List (Plan Double)) := fun
    | .object members => Json.Decoder.record [] [
        Json.Decoder.field "plans" .required list fun _ x => x] (.object members)
    | other => .error (Json.Decoder.mismatchOf other)
  (list value).toOption <|> (wrapped value).toOption

/-- The prompt of a scenario, if it has one that can be read. -/
def storedPrompt (s : Store) (name : String) : Option Prompt := do
  (Prompt.read (← s.readOptional [name, promptFile])).toOption

/-- The plans of a scenario, each once and with its digest, none if they cannot be read. -/
def storedPlans (s : Store) (name : String) : List (Plan Double) :=
  Plan.distinct (((s.readOptional [name, plansFile]).bind plansIn).getD [])

/-- The scenario of a name. -/
def load (s : Store) (name : String) : Except Failure (Scenario Double) := do
  requireScenarioName name
  let domain ← s.readRequired [name, domainFile]
  let problem ← s.readRequired [name, problemFile]
  return { task := ⟨domain, problem⟩
           plans := s.storedPlans name
           prompts := ((s.storedPrompt name).map (·.examples)).getD [] }

/-- The prompt of a scenario, the usual one if it has none. -/
def prompt (s : Store) (name : String) : Except Failure Prompt := do
  requireScenarioName name
  return (s.storedPrompt name).getD {}

/-! ## Files by path -/

/-- The path that a client's text names. It must lead to something within the store. -/
def resolve (s : Store) (path : String) : Except Failure Path :=
  let trimmed := Text.trim path.toList
  if trimmed.isEmpty || trimmed.head? = some '/' then .error (.input (.absolutePath path))
  else match s.files.resolve trimmed with
    | .ok (some found) => .ok found
    | .ok none => .error (.input (.escapingPath path))
    | .error .missing => .error (.notFound path)
    | .error .unusable => .error (.file path)

/-- The text of the file that a client's text names. -/
def readFile (s : Store) (path : String) : Except Failure String := do
  s.readRequired (← s.resolve path)

/-- The task in two files. -/
def readTask (s : Store) (domain problem : String) : Except Failure Planning.TaskText := do
  let domain ← s.readFile domain
  let problem ← s.readFile problem
  return ⟨domain, problem⟩

end Store

end Waymark
