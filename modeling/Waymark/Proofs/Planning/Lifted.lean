import Mathlib.Data.List.Forall2
import Mathlib.Data.Set.Basic
import Waymark.Ground.Grounding

/-!
# The meaning of domains and problems

What schemas mean before anything is grounded, said on the expressions themselves. A state is a set of
atoms. A schema is applied to objects for its parameters: its condition is a conjunction of atoms,
equalities and their negations, and its effect adds and deletes atoms, some of them only if a condition
holds. Deletes come before adds.

* `Atom`: a predicate with the names of objects;
* `Expr.Holds`: a condition holds in a state;
* `Expr.Causes`: an effect adds or deletes an atom in a state;
* `Schema.Allows`, `Schema.next`: when a schema can be applied, and what it makes of a state;
* `IsStep`, `initialAtoms`, `Visits`: what the steps of a task are, where they start, and what states they
  lead through.
-/

namespace Waymark.Planning

/-- A predicate with the names that it is about. -/
structure Atom where
  predicate : String
  args : List String
  deriving DecidableEq

/-- The text of an atom. -/
def Atom.text (a : Atom) : String := Ground.atomName a.predicate a.args

/-- What names stand for. -/
abbrev Valuation := String → String

/-- The atom of a predicate and its arguments. The names among the arguments count. -/
def groundAtom (σ : Valuation) (predicate : String) (items : List Expr) : Atom :=
  ⟨predicate, (items.filterMap Expr.atom?).map σ⟩

end Waymark.Planning

namespace Waymark.Expr

open Planning

/-! ## Conditions -/

/-- Two names stand for the same. -/
def Equates (σ : Valuation) : List Expr → Prop
  | [.atom a, .atom b] => σ a = σ b
  | _ => False

mutual

/-- The condition holds in a state. -/
def Holds (σ : Valuation) (S : Set Atom) : Expr → Prop
  | .atom _ => False
  | .list [] => True
  | .list (.atom op :: items) =>
    if op = "and" then HoldAll σ S items
    else if op = "not" then ¬ HoldsFirst σ S items
    else if op = "=" then Equates σ items
    else groundAtom σ op items ∈ S
  | .list (.list _ :: _) => False

/-- All conditions hold in a state. -/
def HoldAll (σ : Valuation) (S : Set Atom) : List Expr → Prop
  | [] => True
  | x :: xs => Holds σ S x ∧ HoldAll σ S xs

/-- The first of the conditions holds in a state. -/
def HoldsFirst (σ : Valuation) (S : Set Atom) : List Expr → Prop
  | [] => False
  | x :: _ => Holds σ S x

end

/-! ## Effects -/

/-- The atom that a negated effect deletes is the given one. -/
def Negates (σ : Valuation) (a : Atom) : List Expr → Prop
  | .list (.atom predicate :: items) :: _ => a = groundAtom σ predicate items
  | _ => False

mutual

/-- The effect adds an atom, or deletes it, if it takes place in a state. -/
def Causes (σ : Valuation) (S : Set Atom) (adds : Bool) (a : Atom) : Expr → Prop
  | .atom _ => False
  | .list [] => False
  | .list (.atom op :: items) =>
    if op = "and" then CausesAny σ S adds a items
    else if op = "when" then CausesWhen σ S adds a items
    else if op = "increase" then False
    else if op = "not" then adds = false ∧ Negates σ a items
    else adds = true ∧ a = groundAtom σ op items
  | .list (.list _ :: _) => False

/-- One of the effects adds an atom, or deletes it. -/
def CausesAny (σ : Valuation) (S : Set Atom) (adds : Bool) (a : Atom) : List Expr → Prop
  | [] => False
  | x :: xs => Causes σ S adds a x ∨ CausesAny σ S adds a xs

/-- The effect after a condition adds an atom, or deletes it, and the condition holds in the state. -/
def CausesWhen (σ : Valuation) (S : Set Atom) (adds : Bool) (a : Atom) : List Expr → Prop
  | [condition, body] => Holds σ S condition ∧ Causes σ S adds a body
  | _ => False

end

end Waymark.Expr

namespace Waymark.Planning

/-! ## Schemas -/

namespace Schema

/-- A parameter stands for its argument, and any other name for itself. -/
def valuation (s : Schema) (args : List String) : Valuation := fun name =>
  (((s.params.map (·.name)).zip args).lookup name).getD name

/-- The schema can be applied to arguments in a state. -/
def Allows (s : Schema) (args : List String) (S : Set Atom) : Prop :=
  ∀ x ∈ s.condition, x.Holds (s.valuation args) S

/-- The schema adds an atom, or deletes it, when it is applied to arguments in a state. -/
def Causes (s : Schema) (args : List String) (S : Set Atom) (adds : Bool) (a : Atom) : Prop :=
  ∃ x ∈ s.effect, x.Causes (s.valuation args) S adds a

/-- The state after a schema has been applied to arguments. -/
def next (s : Schema) (args : List String) (S : Set Atom) : Set Atom :=
  {a | s.Causes args S true a ∨ a ∈ S ∧ ¬ s.Causes args S false a}

end Schema

/-! ## Steps -/

/-- A schema with its arguments. -/
abbrev Step := Schema × List String

/-- The name of the ground action of a step. -/
def Step.name (x : Step) : String := Ground.atomName x.1.name x.2

/-- The object is declared with a type that can stand where the type `target` is asked for. The first
declaration of an object counts. -/
def IsOfType (domain : Domain) (problem : Problem) (object target : String) : Prop :=
  ∃ o, (problem.objects ++ domain.constants).find? (·.name = object) = some o ∧
    Ground.isSubtype domain.types o.type target = true

/-- The schema is one of the domain, and its arguments are objects of the types of its parameters. -/
def IsStep (domain : Domain) (problem : Problem) (x : Step) : Prop :=
  x.1 ∈ domain.schemas ∧
    List.Forall₂ (fun (p : TypedName) arg => IsOfType domain problem arg p.type) x.1.params x.2

/-- The atoms that hold initially. Entries that start with `=` give values to functions. -/
def initialAtoms (problem : Problem) : Set Atom :=
  {a | a.predicate ≠ "=" ∧ Expr.call a.predicate a.args ∈ problem.init}

/-- Steps can be taken in turn from a state and lead through states, that state first. -/
inductive Visits : Set Atom → List Step → List (Set Atom) → Prop
  | nil (S : Set Atom) : Visits S [] [S]
  | cons {S : Set Atom} {x : Step} {steps : List Step} {Ss : List (Set Atom)} (h : x.1.Allows x.2 S)
      (rest : Visits (x.1.next x.2 S) steps Ss) : Visits S (x :: steps) (S :: Ss)

end Waymark.Planning
