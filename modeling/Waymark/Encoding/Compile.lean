import Waymark.Encoding.Pattern
import Waymark.Encoding.Tracker

/-!
# Compiling formulas into a task

A task with formulas becomes a task without: its plans are the plans of the given task that satisfy
every formula. Two tools watch the formulas, by automata or by patterns.

* `Tool`: the tools and their names;
* `compile`: the compiled domain and problem;
* `compileText`: the same on texts.
-/

namespace Waymark.Encoding

open Planning Constraint

/-- The ways to watch a formula. -/
inductive Tool where
  /-- By tracking its automaton. -/
  | lf2f
  /-- By the pattern of its template. -/
  | p4p
  deriving DecidableEq, Repr

/-- The name of a tool. -/
def Tool.name : Tool → String
  | .lf2f => "lf2f"
  | .p4p => "p4p"

/-- The tool that a text names, whatever its case. -/
def Tool.read (text : String) : Except Failure Tool :=
  match Text.lowercase (Text.trimmed text) with
  | "lf2f" => .ok .lf2f
  | "p4p" => .ok .p4p
  | _ => .error (.unknownTool text)

/-- The monitor of the formula at place `i`. -/
def Tool.monitor (tool : Tool) (stem : String) (i : Nat) (t : Template) : Except Failure Monitor :=
  match tool with
  | .lf2f => .ok (tracker stem i t)
  | .p4p => match pattern? stem i t with
    | some monitor => .ok monitor
    | none => .error (.inexpressible tool.name t.name)

/-- A monitor for each of the bound formulas. -/
def watches (tool : Tool) (stem : String) (bindings : List Binding) :
    Except Failure (List Watch) :=
  bindings.zipIdx.mapM fun (binding, i) =>
    (fun monitor => ⟨monitor, binding.label⟩) <$> tool.monitor stem i binding.formula.template

/-- The domain and the problem whose plans satisfy the formulas. -/
def compile (domain : Domain) (problem : Problem) (formulas : List Formula) (tool : Tool) :
    Except Failure (Domain × Problem) := do
  if formulas.isEmpty then throw (.input .noFormulas)
  let bindings ← formulas.mapM (Binding.of domain)
  let watches ← watches tool (fluentStem domain) bindings
  return (monitoredDomain watches domain, monitoredProblem watches problem)

/-- Compiles formula texts into a task given as texts. -/
def compileText (task : TaskText) (formulas : List String) (tool : Tool) :
    Except Failure TaskText := do
  task.requirePresent
  let formulas ← formulas.mapM Formula.read
  let (domain, problem) ← task.read
  let (domain, problem) ← compile domain problem formulas tool
  return .of domain problem

end Waymark.Encoding
