import Waymark.Files
import Waymark.Number.Decimal
import Waymark.Plan.File
import Waymark.Plan.Search
import Waymark.Scenario.Basic

/-!
# External planners

An external planner is a program that is run in a directory of its own and leaves plan files there. What
a run leaves is data; running the program is up to the caller.

* `Command.read`, `Command.expand`: the command line of a planner;
* `Run.plans`: the plans that a run leaves;
* `Planner.external`: the planner that runs a command.
-/

namespace Waymark

namespace Plan

variable {κ : Type}

/-- A program with its arguments. -/
structure Command where
  program : String
  arguments : List String
  deriving DecidableEq, Repr

/-- The command that a line writes: words between blanks. -/
def Command.read (line : String) : Except Failure Command :=
  match (Text.words line.toList).map String.ofList with
  | [] => .error (.input .emptyCommand)
  | program :: arguments => .ok { program, arguments }

/-- The arguments with the task's files and the bounds in the places that stand for them. -/
def Command.expand [Number.Scale κ] (c : Command) (b : Bounds κ) (domain problem : String) :
    List String :=
  c.arguments.map fun argument =>
    [("\x7bdomain\x7d", domain), ("\x7bproblem\x7d", problem), ("\x7bk\x7d", toString b.maxPlans),
      ("\x7bq\x7d", Number.Scale.text b.factor)].foldl
      (fun text (mark, value) => Text.replaced mark value text) argument

/-- What a run of a planner leaves. -/
structure Run where
  /-- The exit code, zero if the planner succeeded. -/
  code : Nat := 0
  /-- What it wrote about its errors. -/
  errors : String := ""
  files : Files := {}

/-- The number at the end of a file name, after the last point. Zero stands for none. -/
def fileNumber (name : String) : Nat :=
  match Text.pieces (· = '.') name.toList with
  | [] | [_] => 0
  | parts => (Number.readWord? (parts.getLast?.getD [])).getD 0

/-- The name is that of a plan file. -/
def isPlanFile (name : String) : Bool := (Text.after? "sas_plan".toList name.toList).isSome

/-- The paths of the plan files, by their numbers and then by their paths. -/
def planFiles (files : Files) : List Path :=
  let paths := files.entries.filterMap fun (path, entry) =>
    match entry, path.getLast? with
    | .file _, some name => if isPlanFile name then some (fileNumber name, path) else none
    | _, _ => none
  (paths.mergeSort fun x y => ((compare x.1 y.1).then (compare x.2 y.2)).isLE).map (·.2)

/-- The plans in the plan files, in their order, except those without actions. -/
def filedPlans [Number.Scale κ] (files : Files) : Except Failure (List (Plan κ)) := do
  let texts ← (planFiles files).mapM fun path =>
    (files.readText path).mapError fun _ => Failure.file ("/".intercalate path)
  return (texts.map fun text => ofFile text.toList).filter fun p => !p.actions.isEmpty

/-- Of plans of which the first is the best, those whose costs are within the bound. -/
def Bounds.within [Number.Scale κ] (b : Bounds κ) : List (Plan κ) → List (Plan κ)
  | [] => []
  | best :: rest => (best :: rest).filter fun p : Plan κ => b.admits best.cost p.cost

/-- Each plan once, the cheapest first, as far as the bounds allow. -/
def Bounds.select [Number.Scale κ] (b : Bounds κ) (plans : List (Plan κ)) : List (Plan κ) :=
  let sorted := (distinct plans).mergeSort fun x y => (Number.Scale.order x.cost y.cost).isLE
  (b.within sorted).take b.maxPlans

/-- The plans that a run leaves. A run that fails and leaves none is a failure. -/
def Run.plans [Number.Scale κ] (run : Run) (program : String) (b : Bounds κ) :
    Except Failure (List (Plan κ)) := do
  let plans ← filedPlans run.files
  if run.code ≠ 0 && plans.isEmpty then
    throw (.planner (.exited program run.code (Text.trimmed run.errors)))
  return b.select plans

/-- The texts can be given to a program. What is given ends at a zero. -/
def mayBeGiven (texts : List String) : Bool := texts.all fun t => !t.toList.contains (Char.ofNat 0)

end Plan

/-- The planner that runs a command. `launch` runs a program on the task with given arguments, or says
why it could not be started. Both texts of the task are read before the program is run. -/
def Planner.external {κ : Type} [Number.Scale κ] (command : Plan.Command) (b : Plan.Bounds κ)
    (launch : (program : String) → (arguments : List String) → Except String Plan.Run) :
    Planner κ where
  name := "external-topq"
  search task := do
    let _ ← task.read
    let arguments := command.expand b "domain.pddl" "problem.pddl"
    if !Plan.mayBeGiven (command.program :: arguments) then
      throw (.planner (.notStarted command.program "nul byte found in provided data"))
    match launch command.program arguments with
    | .error reason => throw (.planner (.notStarted command.program reason))
    | .ok run => run.plans command.program b

end Waymark
