import Waymark.Encoding.Binding
import Waymark.Planning.Problem

/-!
# Monitors

A monitor watches the execution of a plan with fluents of its own. It says which fluents hold
initially, which must and must not hold at the end, and, for each label that an action can have, what
the action needs and does in addition. Adding monitors to a task leaves its actions and their names as
they are.

* `fluentStem`: the beginning of fluent names that the domain does not use;
* `Monitor`: what a monitor adds;
* `monitored`: the task with monitors.
-/

namespace Waymark.Encoding

open Planning Constraint

/-! ## Fluents -/

/-- The beginnings of fluent names, in the order in which they are tried. -/
def stem (i : Nat) : String := if i = 0 then "ltl" else "ltl" ++ toString i

/-- A predicate of the domain begins with the stem and a hyphen. -/
def isTaken (domain : Domain) (stem : String) : Bool :=
  domain.predicates.any fun p => (stem ++ "-").toList.isPrefixOf p.name.toList

/-- The first stem that is not taken. Each predicate takes at most one, so one of the first
`predicates.length + 1` is free. -/
def fluentStem (domain : Domain) : String :=
  ((List.range (domain.predicates.length + 1)).map stem).find? (fun s => !isTaken domain s)
    |>.getD (stem domain.predicates.length)

/-- The atom of a fluent without arguments. -/
def fluentAtom (name : String) : Expr := .list [.atom name]

/-- The effect `effects` under the condition `condition`. -/
def whenever (condition effects : List Expr) : Expr :=
  .list [.atom "when", .conjunction condition, .conjunction effects]

/-! ## Monitors -/

/-- What is added to a task in order to watch a formula. -/
structure Monitor where
  /-- The names of the fluents. -/
  fluents : List String
  /-- The fluents that hold initially. -/
  init : List Expr := []
  /-- What must hold at the end. -/
  goal : List Expr := []
  /-- What an action with a label needs. -/
  condition : Label → List Expr := fun _ => []
  /-- What an action with a label does. -/
  effect : Label → List Expr := fun _ => []

/-- A monitor and the labels of schemas. -/
structure Watch where
  monitor : Monitor
  label : Schema → Label

/-- What the monitors add to the condition of a schema. -/
def addedConditions (watches : List Watch) (s : Schema) : List Expr :=
  watches.flatMap fun w => w.monitor.condition (w.label s)

/-- What the monitors add to the effect of a schema. -/
def addedEffects (watches : List Watch) (s : Schema) : List Expr :=
  watches.flatMap fun w => w.monitor.effect (w.label s)

/-- What the monitors add to the goal. -/
def addedGoals (watches : List Watch) : List Expr := watches.flatMap (·.monitor.goal)

/-- A condition or an effect with further conjuncts. -/
def withConjuncts (whole : Option Expr) (added : List Expr) : Option Expr :=
  if added.isEmpty then whole
  else some (.conjunction ((whole.map Expr.conjuncts).getD [] ++ added))

/-- A schema with what the monitors add. -/
def watched (watches : List Watch) (s : Schema) : Schema :=
  { s with
    condition := withConjuncts s.condition (addedConditions watches s)
    effect := withConjuncts s.effect (addedEffects watches s) }

/-- A negation. -/
def isNegation (x : Expr) : Bool := x.head? = some "not"

/-- A conditional effect. -/
def isConditional (x : Expr) : Bool := x.head? = some "when"

/-- A conditional effect whose condition has a negated conjunct. -/
def hasNegatedCondition : Expr → Bool
  | .list (.atom "when" :: condition :: _) => condition.conjuncts.any isNegation
  | _ => false

/-- The monitors use negated conditions. -/
def usesNegation (watches : List Watch) (schemas : List Schema) : Bool :=
  (schemas.any fun s =>
      (addedConditions watches s).any isNegation || (addedEffects watches s).any hasNegatedCondition) ||
    (addedGoals watches).any isNegation

/-- The monitors use conditional effects. -/
def usesConditions (watches : List Watch) (schemas : List Schema) : Bool :=
  schemas.any fun s => (addedEffects watches s).any isConditional

/-- The domain with monitors. -/
def monitoredDomain (watches : List Watch) (domain : Domain) : Domain :=
  let fluents := watches.flatMap (·.monitor.fluents)
  let extended : Domain :=
    { domain with
      predicates := domain.predicates ++ fluents.map fun name => ⟨name, []⟩
      schemas := domain.schemas.map (watched watches) }
  let extended :=
    if usesNegation watches domain.schemas then extended.require ":negative-preconditions"
    else extended
  if usesConditions watches domain.schemas then extended.require ":conditional-effects"
  else extended

/-- The problem with monitors. -/
def monitoredProblem (watches : List Watch) (problem : Problem) : Problem :=
  { problem with
    init := problem.init ++ watches.flatMap (·.monitor.init)
    goal := .conjunction (problem.goal.conjuncts ++ addedGoals watches) }

end Waymark.Encoding
