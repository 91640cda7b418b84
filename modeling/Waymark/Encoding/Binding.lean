import Waymark.Constraint.Automaton
import Waymark.Constraint.Formula
import Waymark.Planning.Domain
import Waymark.Planning.Name

/-!
# Activities in a domain

An activity of a formula is an action of the domain, or a predicate that some action adds. A formula is
bound to a domain when both of its activities are found there; every schema then has a label that says
of which activities its execution is an occurrence.

* `resolve`: the event that an activity names;
* `Binding.of`: a formula with its events;
* `Binding.label`: the label of a schema.
-/

namespace Waymark.Encoding

open Planning Constraint

/-- What counts as an occurrence of an activity. -/
inductive Event where
  /-- An action of this name is executed. -/
  | executes (schema : String)
  /-- An action is executed that adds this predicate. -/
  | adds (predicate : String)
  deriving DecidableEq, Repr

/-- A conjunct of the effect adds the predicate. -/
def addsPredicate (s : Schema) (predicate : String) : Bool :=
  match s.effect with
  | some effect => effect.conjuncts.any fun e => e.head? = some predicate
  | none => false

/-- The execution of a schema is an occurrence of the event. -/
def Event.fires (e : Event) (s : Schema) : Bool :=
  match e with
  | .executes name => s.name = name
  | .adds predicate => addsPredicate s predicate

/-- The event that an activity names: an action, or else a predicate that some action adds. -/
def resolve (domain : Domain) (f : Formula) (activity : String) : Except Failure Event :=
  match domain.schemas.find? fun s => sameName s.name activity with
  | some s => .ok (.executes s.name)
  | none =>
    let unresolved := .error (.unresolved activity f.display)
    match domain.predicates.find? fun p => sameName p.name activity with
    | some p =>
      if domain.schemas.any fun s => addsPredicate s p.name then .ok (.adds p.name) else unresolved
    | none => unresolved

/-- A formula whose activities are found in a domain. -/
structure Binding where
  formula : Formula
  a : Event
  b : Event
  deriving DecidableEq

/-- Finds the activities of a formula in a domain. -/
def Binding.of (domain : Domain) (formula : Formula) : Except Failure Binding := do
  let a ← resolve domain formula formula.a
  let b ← resolve domain formula formula.b
  return { formula, a, b }

/-- Of which activities the execution of a schema is an occurrence. -/
def Binding.label (binding : Binding) (s : Schema) : Label where
  a := binding.a.fires s
  b := binding.formula.template.arity = 2 && binding.b.fires s

end Waymark.Encoding
