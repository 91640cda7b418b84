import Waymark.Planning.Domain

/-!
# Planning problems

A problem names its domain, declares objects, and gives the initial facts, the goal and optionally a
metric.

* `Problem.read`: the problem that a text defines;
* `Problem.text`: the definition of a problem;
* `TaskText`: the texts of a domain and of a problem, and `TaskText.read` for both.
-/

namespace Waymark.Planning

/-- A planning problem. -/
structure Problem where
  name : String
  domain : String
  requirements : List String := []
  objects : List TypedName := []
  init : List Expr := []
  goal : Expr
  metric : Option (List Expr) := none
  deriving DecidableEq, Repr, Inhabited

/-- A problem while its sections are read. -/
structure ProblemParts where
  domain : Option String := none
  requirements : List String := []
  objects : List TypedName := []
  init : List Expr := []
  goal : Option Expr := none
  metric : Option (List Expr) := none

/-- Adds a section to a problem. A later section of a kind takes the place of an earlier one. -/
def ProblemParts.addSection (parts : ProblemParts) (x : Expr) : Except Failure ProblemParts := do
  let (key, body) ← readSection x
  match key with
  | ":domain" => return { parts with domain := (← readNames key body).head? }
  | ":requirements" => return { parts with requirements := ← readNames key body }
  | ":objects" => return { parts with objects := ← readTyped body }
  | ":init" => return { parts with init := body }
  | ":goal" =>
    match body with
    | goal :: _ => return { parts with goal := some goal }
    | [] => throw (.task .emptyGoal)
  | ":metric" => return { parts with metric := some body }
  | key => throw (.unsupported (.problemSection key))

/-- The problem that a text defines. -/
def Problem.read (text : String) : Except Failure Problem := do
  let (name, sections) ← readDefinition "problem" (← readExpr text)
  let parts ← sections.foldlM ProblemParts.addSection {}
  match parts.domain, parts.goal with
  | none, _ => throw (.task .noDomain)
  | _, none => throw (.task .noGoal)
  | some domain, some goal =>
    return { name, domain, goal, requirements := parts.requirements, objects := parts.objects,
             init := parts.init, metric := parts.metric }

/-- The conjuncts of the goal. -/
def Problem.goalConjuncts (p : Problem) : List Expr := p.goal.conjuncts

/-- The definition of a problem. -/
def Problem.text (p : Problem) : String :=
  ofLines <|
    ["(define (problem " ++ p.name ++ ")", "  (:domain " ++ p.domain ++ ")"] ++
      (if p.requirements.isEmpty then []
        else ["  (:requirements " ++ " ".intercalate p.requirements ++ ")"]) ++
      (if p.objects.isEmpty then [] else ["  (:objects " ++ typedText p.objects ++ ")"]) ++
      ["  (:init"] ++ p.init.map (fun x => "    " ++ x.display) ++ ["  )"] ++
      ["  (:goal " ++ p.goal.display ++ ")"] ++
      (p.metric.map fun items =>
        "  (:metric " ++ " ".intercalate (items.map Expr.display) ++ ")").toList ++ [")"]

/-- A planning task as two texts. -/
structure TaskText where
  domain : String := ""
  problem : String := ""
  deriving DecidableEq, Repr, Inhabited

/-- Both texts have something other than blanks. -/
def TaskText.isPresent (task : TaskText) : Bool :=
  !Text.allBlank task.domain && !Text.allBlank task.problem

/-- Refuses a task of which a text is blank. -/
def TaskText.requirePresent (task : TaskText) : Except Failure Unit :=
  if task.isPresent then .ok () else .error .emptyTask

/-- Reads both texts, the domain first. -/
def TaskText.read (task : TaskText) : Except Failure (Domain × Problem) := do
  let domain ← Domain.read task.domain
  let problem ← Problem.read task.problem
  return (domain, problem)

/-- The texts of a domain and a problem. -/
def TaskText.of (domain : Domain) (problem : Problem) : TaskText :=
  ⟨domain.text, problem.text⟩

end Waymark.Planning
