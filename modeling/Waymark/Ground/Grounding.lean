import Std.Data.HashSet
import Waymark.Ground.Layers
import Waymark.Ground.Literal

/-!
# Grounding

Turns a domain and a problem into a ground task. Every schema is instantiated with all objects of the
types of its parameters. Equalities and literals of static predicates, which no effect mentions, are
decided while grounding; all other literals become facts, numbered in the order in which they are met.
Actions that the relaxation cannot reach are dropped.

* `isSubtype`: when an object of one type can stand for a parameter of another;
* `Setting.assignments`: the arguments with which a schema is instantiated;
* `Setting.instantiate`: the ground action of a schema and its arguments;
* `Task.ground`: the ground task.
-/

namespace Waymark.Ground

open Planning

/-- The number of ground actions beyond which a task is refused. -/
def maxActions : Nat := 100000

/-- The name of an atom. -/
def atomName (predicate : String) (args : List String) : String :=
  "(" ++ predicate ++ String.join (args.map (" " ++ ·)) ++ ")"

/-! ## Types -/

/-- Follows declared parents from a type, at most `steps` of them, in search of another type. -/
def reachesType (parents : String → Option String) (target : String) : Nat → String → Bool
  | 0, _ => false
  | steps + 1, type =>
    if type = target then true
    else match parents type with
      | some parent => if parent = type then false else reachesType parents target steps parent
      | none => false

/-- The parent of a type. The last declaration of a type counts. -/
def parentIn (types : List TypedName) (type : String) : Option String :=
  (types.reverse.find? (·.name = type)).map (·.type)

/-- An object of the type `type` can stand where one of type `target` is asked for. The search for a
common type looks at 64 types. -/
def isSubtype (types : List TypedName) (type target : String) : Bool :=
  target = objectType || reachesType (parentIn types) target 64 type

/-! ## Variables -/

/-- Values of variables. The first entry of a variable counts. -/
abbrev Binding := List (String × String)

/-- The binding of parameters to arguments. Of parameters with one name the last counts. -/
def Binding.of (params args : List String) : Binding := (params.zip args).reverse

/-- The name that an argument stands for. -/
def Binding.resolve (binding : Binding) (arg : String) : Except Failure String :=
  if arg.toList.head? = some '?' then
    match binding.lookup arg with
    | some value => .ok value
    | none => .error (.task (.unboundVariable arg))
  else .ok arg

/-- The names that arguments stand for. -/
def Binding.resolveAll (binding : Binding) (args : List String) : Except Failure (List String) :=
  args.mapM binding.resolve

/-! ## Literals -/

/-- What grounding refers to: the initial facts, the predicates that no effect mentions, and the
initial values of functions. -/
structure Setting (κ : Type) where
  initial : Std.HashSet String
  statics : Std.HashSet String
  values : Std.HashMap String κ
  usesCosts : Bool

/-- Numbers facts while it computes. -/
abbrev Numbering := StateT FactTable (Except Failure)

/-- The number of the fact with a name. -/
def internFact (name : String) : Numbering Nat := fun table => .ok (table.intern name)

/-- A literal whose truth does not depend on the state. -/
def Setting.isStatic {κ : Type} (setting : Setting κ) : Literal → Bool
  | .equality .. => true
  | .atom _ predicate _ => setting.statics.contains predicate

namespace Setting

variable {κ : Type} (setting : Setting κ)

/-- The truth of a literal that does not depend on the state, none for the others. -/
def decide (binding : Binding) : Literal → Except Failure (Option Bool)
  | .equality positive a b => do
    let a ← binding.resolve a
    let b ← binding.resolve b
    return some ((a == b) == positive)
  | .atom positive predicate args =>
    if setting.statics.contains predicate then do
      let args ← binding.resolveAll args
      return some (setting.initial.contains (atomName predicate args) == positive)
    else return none

/-- The fact of a literal, and whether it is positive. -/
def factOf (binding : Binding) : Literal → Numbering (Bool × Nat)
  | .atom positive predicate args => do
    let args ← binding.resolveAll args
    return (positive, ← internFact (atomName predicate args))
  | .equality .. => throw (.unsupported .equalityInEffect)

/-- The facts of literals: those of positive and those of negated ones. -/
def factsOf (binding : Binding) : List Literal → Numbering (List Nat × List Nat)
  | [] => return ([], [])
  | l :: ls => do
    let (positive, fact) ← factOf binding l
    let (positives, negatives) ← factsOf binding ls
    return if positive then (fact :: positives, negatives) else (positives, fact :: negatives)

/-- The facts that a condition needs and forbids, none if a literal that does not depend on the state
is false. -/
def conditionFacts (binding : Binding) :
    List Literal → Numbering (Option (List Nat × List Nat))
  | [] => return some ([], [])
  | l :: ls => do
    match ← setting.decide binding l with
    | some true => conditionFacts binding ls
    | some false => return none
    | none =>
      let (positive, fact) ← factOf binding l
      match ← conditionFacts binding ls with
      | none => return none
      | some (needs, forbids) =>
        return some (if positive then (fact :: needs, forbids) else (needs, fact :: forbids))

/-- The conditional effects whose conditions are possible. -/
def conditionalEffects (binding : Binding) :
    List (List Literal × List Literal) → Numbering (List ConditionalEffect)
  | [] => return []
  | (condition, literals) :: rest => do
    match ← setting.conditionFacts binding condition with
    | none => conditionalEffects binding rest
    | some (needs, forbids) =>
      let (adds, deletes) ← factsOf binding literals
      return ⟨needs, forbids, adds, deletes⟩ :: (← conditionalEffects binding rest)

variable [Number.Scale κ]

/-- What an action costs. Without a metric every action costs one, with a metric an action without
an increase costs nothing. -/
def cost (binding : Binding) (term : Option (CostTerm κ)) : Except Failure κ :=
  if setting.usesCosts then
    match term with
    | none => .ok (Number.Scale.ofNat 0)
    | some (.number x) => .ok x
    | some (.function []) => .error (.task .emptyCostFunction)
    | some (.function (name :: args)) => do
      let key := atomName name (← binding.resolveAll args)
      match setting.values[key]? with
      | some x => return x
      | none => throw (.task (.noInitialValue key))
  else .ok (Number.Scale.ofNat 1)

end Setting

/-! ## Assignments -/

/-- A parameter with the objects it may stand for, and the static literals that are decided once it
has a value. -/
structure Slot where
  param : String
  candidates : List String
  checks : List Literal

/-- The last of the parameters that a literal mentions. -/
def lastMentioned? (params : List String) (l : Literal) : Option Nat :=
  let args := match l with
    | .atom _ _ args => args
    | .equality _ a b => [a, b]
  (args.filterMap fun arg => params.idxOf? arg).max?

namespace Setting

variable {κ : Type} (setting : Setting κ)

/-- All the literals are true. The first that is not ends the test. -/
def holdAll (binding : Binding) : List Literal → Except Failure Bool
  | [] => .ok true
  | l :: ls => do
    if (← setting.decide binding l) == some true then holdAll binding ls else return false

/-- All the literals are true. Each of them is tested. -/
def holdEach (binding : Binding) : List Literal → Except Failure Bool
  | [] => .ok true
  | l :: ls => do
    let first ← setting.decide binding l
    let rest ← holdEach binding ls
    return first == some true && rest

/-- Extends an assignment over the remaining slots in all ways that pass their checks. `binding` and
`args` hold the slots before, the last one first, and `done` the assignments found so far, the last
one first, with their number. -/
def extend (binding : Binding) (args : List String) :
    List Slot → Nat × List (List String) → Except Failure (Nat × List (List String))
  | [], (count, done) =>
    if count + 1 > maxActions then .error (.unsupported (.actionCount maxActions))
    else .ok (count + 1, args.reverse :: done)
  | slot :: slots, done =>
    slot.candidates.foldlM (fun done object => do
      let binding := (slot.param, object) :: binding
      if ← setting.holdAll binding slot.checks then extend binding (object :: args) slots done
      else return done) done

/-- The arguments with which a schema is instantiated, given the slots of its parameters and the
static literals that mention no parameter. -/
def assignments (slots : List Slot) (closed : List Literal) :
    Except Failure (List (List String)) := do
  if ← setting.holdEach [] closed then
    let (_, found) ← setting.extend [] [] slots (0, [])
    return found.reverse
  else return []

end Setting

/-! ## Schemas -/

/-- A schema with its condition and its effect read. -/
structure LiftedAction (κ : Type) where
  name : String
  params : List TypedName
  condition : List Literal
  effect : Effect κ

variable {κ : Type}

/-- Reads the condition and the effect of a schema. -/
def LiftedAction.read [Number.Scale κ] (s : Schema) : Except Failure (LiftedAction κ) := do
  let condition ← match s.condition with
    | some x => readCondition x
    | none => pure []
  let effect ← match s.effect with
    | some x => Effect.read x
    | none => pure {}
  return { name := s.name, params := s.params, condition, effect }

/-- The literals that an effect may make true or false. -/
def Effect.allLiterals (e : Effect κ) : List Literal :=
  e.literals ++ e.conditional.flatMap (·.2)

/-- The predicate of a literal. -/
def Literal.predicate? : Literal → Option String
  | .atom _ predicate _ => some predicate
  | .equality .. => none

/-- The predicates that the effects of actions mention. -/
def changedPredicates (actions : List (LiftedAction κ)) : List String :=
  actions.flatMap fun a => a.effect.allLiterals.filterMap Literal.predicate?

/-- The slots of the parameters of an action. -/
def Setting.slots (setting : Setting κ) (types objects : List TypedName) (a : LiftedAction κ) :
    List Slot :=
  let params := a.params.map (·.name)
  a.params.zipIdx.map fun (p, i) =>
    { param := p.name
      candidates := (objects.filter fun o => isSubtype types o.type p.type).map (·.name)
      checks := a.condition.filter fun l =>
        setting.isStatic l && lastMentioned? params l == some i }

/-- The static literals of a condition that mention no parameter. -/
def Setting.closedChecks (setting : Setting κ) (a : LiftedAction κ) : List Literal :=
  a.condition.filter fun l =>
    setting.isStatic l && lastMentioned? (a.params.map (·.name)) l == none

/-- The ground action of a schema and its arguments, none if its condition is impossible. -/
def Setting.instantiate [Number.Scale κ] (setting : Setting κ) (a : LiftedAction κ)
    (args : List String) : Numbering (Option (Action κ)) := do
  let binding := Binding.of (a.params.map (·.name)) args
  match ← setting.conditionFacts binding a.condition with
  | none => return none
  | some (needs, forbids) =>
    let (adds, deletes) ← Setting.factsOf binding a.effect.literals
    let conditional ← setting.conditionalEffects binding a.effect.conditional
    let cost ← setting.cost binding a.effect.cost
    return some { name := atomName a.name args, needs, forbids, adds, deletes, conditional, cost }

/-- Instantiates an action with each of the assignments, after those in `done`. -/
def Setting.instantiateAll [Number.Scale κ] (setting : Setting κ) (a : LiftedAction κ) :
    List (List String) → Array (Action κ) → Numbering (Array (Action κ))
  | [], done => return done
  | args :: rest, done => do
    match ← setting.instantiate a args with
    | none => setting.instantiateAll a rest done
    | some action =>
      if done.size + 1 > maxActions then throw (.unsupported (.actionCount maxActions))
      else setting.instantiateAll a rest (done.push action)

/-- Instantiates actions in their order, after those in `done`. -/
def Setting.groundActions [Number.Scale κ] (setting : Setting κ) (types objects : List TypedName) :
    List (LiftedAction κ) → Array (Action κ) → Numbering (Array (Action κ))
  | [], done => return done
  | a :: rest, done => do
    let found ← setting.assignments (setting.slots types objects a) (setting.closedChecks a)
    setting.groundActions types objects rest (← setting.instantiateAll a found done)

/-! ## Problems -/

/-- The initial facts, and the initial values of functions. -/
structure Initial (κ : Type) where
  facts : List String
  values : Std.HashMap String κ

/-- Reads the initial entries. Arguments that are lists are passed over. -/
def Initial.read [Number.Scale κ] :
    List Expr → Std.HashMap String κ → Except Failure (Initial κ)
  | [], values => .ok ⟨[], values⟩
  | .atom a :: _, _ => .error (.task (.badInitialFact (.atom a)))
  | .list [] :: _, _ => .error .emptyInitialFact
  | .list (.atom "=" :: items) :: rest, values =>
    match items with
    | [.list term, .atom number] =>
      match term.filterMap Expr.atom? with
      | [] => Initial.read rest values
      | name :: args => match Number.Scale.read? number.toList with
        | some x => Initial.read rest (values.insert (atomName name args) x)
        | none => .error (.task (.badNumber number))
    | items => .error (.task (.badAssignment (.list (.atom "=" :: items))))
  | .list (.atom predicate :: items) :: rest, values => do
    let found ← Initial.read rest values
    return { found with facts := atomName predicate (items.filterMap Expr.atom?) :: found.facts }
  | .list (.list xs :: items) :: _, _ =>
    .error (.task (.badInitialFact (.list (.list xs :: items))))

/-- The declared names, the first declaration of each. -/
def firstDeclarations (names : List TypedName) : List TypedName :=
  (names.foldl (fun (done : List TypedName) x =>
    if done.any (·.name = x.name) then done else x :: done) []).reverse

/-- The facts that the literals of a goal need and forbid. An equality that is false is needed as a
fact that no action adds. -/
def goalFacts : List Literal → Numbering (List Nat × List Nat)
  | [] => return ([], [])
  | .equality positive a b :: ls => do
    if (a == b) == positive then goalFacts ls
    else
      let fact ← internFact (atomName "=" [a, b])
      let (needs, forbids) ← goalFacts ls
      return (fact :: needs, forbids)
  | l :: ls => do
    let (positive, fact) ← Setting.factOf [] l
    let (needs, forbids) ← goalFacts ls
    return if positive then (fact :: needs, forbids) else (needs, fact :: forbids)

/-- The ground task before unreachable actions are dropped. -/
def Task.groundFully [Number.Scale κ] (domain : Domain) (problem : Problem) :
    Except Failure (Task κ) := do
  let actions ← domain.schemas.mapM (LiftedAction.read (κ := κ))
  let changed := Std.HashSet.ofList (changedPredicates actions)
  let initial ← Initial.read (κ := κ) problem.init ∅
  let setting : Setting κ :=
    { initial := Std.HashSet.ofList initial.facts
      statics := Std.HashSet.ofList
        ((domain.predicates.map (·.name)).filter fun p => !changed.contains p)
      values := initial.values
      usesCosts := problem.metric.isSome }
  let objects := firstDeclarations (problem.objects ++ domain.constants)
  let build : Numbering (Task κ) := do
    let init ← initial.facts.mapM internFact
    let actions ← setting.groundActions domain.types objects actions #[]
    let (goalNeeds, goalForbids) ← goalFacts (← readCondition problem.goal)
    return { facts := ← get, init, actions, goalNeeds, goalForbids }
  (·.1) <$> build.run FactTable.empty

/-- The ground task of a domain and a problem. -/
def Task.ground [Number.Scale κ] (domain : Domain) (problem : Problem) :
    Except Failure (Task κ) :=
  Task.pruned <$> Task.groundFully domain problem

/-- The ground task of two texts. -/
def Task.ofText [Number.Scale κ] (task : TaskText) : Except Failure (Task κ) := do
  let (domain, problem) ← task.read
  Task.ground domain problem

end Waymark.Ground
