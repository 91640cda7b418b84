import Waymark.Planning.Problem
import Waymark.Number.Scale

/-!
# Conditions and effects as literals

Conditions are conjunctions of literals: atoms and equalities, positive or negated. Effects are
literals, conditional effects and a cost. Everything else in an expression is refused as unsupported
or malformed.

* `readCondition`: the literals of a condition;
* `Effect.read`: the parts of an effect.
-/

namespace Waymark.Ground

/-- A literal over names and variables. -/
inductive Literal where
  | atom (positive : Bool) (predicate : String) (args : List String)
  | equality (positive : Bool) (a b : String)
  deriving DecidableEq, Repr

/-- What an action costs: a number, or the initial value of a function term. -/
inductive CostTerm (κ : Type) where
  | number (value : κ)
  | function (parts : List String)

/-- The effect of an action schema. -/
structure Effect (κ : Type) where
  literals : List Literal := []
  /-- Conditions with the effects that they trigger. -/
  conditional : List (List Literal × List Literal) := []
  /-- What the last increase adds to the cost. -/
  cost : Option (CostTerm κ) := none

/-- The names of arguments. -/
def readArgs (whole : List Expr) (items : List Expr) : Except Failure (List String) :=
  items.mapM fun
    | .atom a => .ok a
    | .list _ => .error (.unsupported (.numericExpression (.list whole)))

/-- The literal of an atom or an equality. -/
def readLiteral (positive : Bool) : List Expr → Except Failure Literal
  | .atom predicate :: items => do
    let args ← readArgs (.atom predicate :: items) items
    if predicate = "=" then
      match args with
      | [a, b] => return .equality positive a b
      | _ => throw (.task .equalityArity)
    else if ["<", ">", "<=", ">="].contains predicate then
      throw (.unsupported (.comparison predicate))
    else return .atom positive predicate args
  | items => .error (.task (.badLiteral (.list items)))

/-- The operators that conditions are not made of. -/
def conditionOperators : List String := ["or", "imply", "forall", "exists", "when"]

/-- The literal that a negation holds. -/
def readNegation : List Expr → Except Failure Literal
  | .list (.atom op :: items) :: rest =>
    if ["and", "or", "not"].contains op then
      .error (.unsupported
        (.complexNegation (.list (.atom "not" :: .list (.atom op :: items) :: rest))))
    else readLiteral false (.atom op :: items)
  | .list items :: _ => readLiteral false items
  | items => .error (.task (.badNegation (.list (.atom "not" :: items))))

mutual

/-- The literals of a condition. -/
def readCondition : Expr → Except Failure (List Literal)
  | .atom a => .error (.task (.bareName a))
  | .list [] => .ok []
  | .list (.atom op :: items) =>
    if op = "and" then readConditions items
    else if op = "not" then (fun l => [l]) <$> readNegation items
    else if conditionOperators.contains op then .error (.unsupported (.conditionOperator op))
    else (fun l => [l]) <$> readLiteral true (.atom op :: items)
  | .list (.list xs :: items) => .error (.task (.badCondition (.list (.list xs :: items))))

/-- The literals of several conditions in turn. -/
def readConditions : List Expr → Except Failure (List Literal)
  | [] => .ok []
  | x :: xs => do return (← readCondition x) ++ (← readConditions xs)

end

mutual

/-- The literals of an effect that stands under a condition. -/
def readSimpleEffect : Expr → Except Failure (List Literal)
  | .list (.atom op :: items) =>
    if op = "and" then readSimpleEffects items
    else if ["when", "forall", "increase"].contains op then
      .error (.unsupported (.nestedEffect (.list (.atom op :: items))))
    else readCondition (.list (.atom op :: items))
  | x => readCondition x

/-- The literals of several such effects in turn. -/
def readSimpleEffects : List Expr → Except Failure (List Literal)
  | [] => .ok []
  | x :: xs => do return (← readSimpleEffect x) ++ (← readSimpleEffects xs)

end

namespace Effect

variable {κ : Type}

/-- The two effects together. Of two costs the second counts. -/
def append (e f : Effect κ) : Effect κ :=
  ⟨e.literals ++ f.literals, e.conditional ++ f.conditional, f.cost.or e.cost⟩

/-- A conditional effect. -/
def readWhen : List Expr → Except Failure (Effect κ)
  | [condition, body] => do
    let condition ← readCondition condition
    let literals ← readSimpleEffect body
    return { conditional := [(condition, literals)] }
  | items => .error (.task (.badWhen (.list (.atom "when" :: items))))

variable [Number.Scale κ]

/-- The amount of an increase. -/
def readAmount : Expr → Except Failure (CostTerm κ)
  | .atom n => match Number.Scale.read? n.toList with
    | some x => .ok (.number x)
    | none => .error (.task (.badCost n))
  | .list parts => match parts.mapM Expr.atom? with
    | some names => .ok (.function names)
    | none => .error (.unsupported (.costExpression (.list parts)))

/-- An increase of the total cost. -/
def readIncrease : List Expr → Except Failure (Effect κ)
  | [target, amount] =>
    if target.head? = some "total-cost" then
      (fun cost => { cost := some cost }) <$> readAmount amount
    else .error (.unsupported (.numericFluent target))
  | items => .error (.task (.badIncrease (.list (.atom "increase" :: items))))

mutual

/-- The parts of an effect. -/
def read : Expr → Except Failure (Effect κ)
  | .atom a => .error (.task (.badEffect (.atom a)))
  | .list [] => .ok {}
  | .list (.atom op :: items) =>
    if op = "and" then readAll items
    else if op = "when" then readWhen items
    else if op = "increase" then readIncrease items
    else if ["forall", "decrease", "assign"].contains op then
      .error (.unsupported (.effectOperator op))
    else (fun literals => { literals }) <$> readCondition (.list (.atom op :: items))
  | .list (.list xs :: items) =>
    (fun literals => { literals }) <$> readCondition (.list (.list xs :: items))

/-- The parts of several effects in turn. -/
def readAll : List Expr → Except Failure (Effect κ)
  | [] => .ok {}
  | x :: xs => do return (← read x).append (← readAll xs)

end

end Effect

end Waymark.Ground
