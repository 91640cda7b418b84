import Waymark.Ground.Grounding
import Waymark.Proofs.Ground.Rule
import Waymark.Proofs.Outcome

/-!
# Ground tasks with named facts

Grounding numbers facts as it meets them. Without the numbers it is a plain function from a domain and
a problem to actions whose rules are over the names of atoms, and a state is a set of names.

* `NamedTask`, `NamedAction`: ground tasks and actions over names;
* `Setting.named`: the ground action of a schema and its arguments;
* `facts_of_read`: the facts that hold initially;
* `NamedTask.of`: the ground task of a domain and a problem;
* `Steps`: a run with the names and the costs of its steps;
* `NamedTask.IsPlan`: a sequence of names leads to the goal at a cost.
-/

namespace Waymark.Ground

open Planning Number

/-! ## Runs -/

section Steps

variable {σ τ κ : Type} [Scale κ]

/-- A run of steps with names and costs. The cost so far is part of it. -/
inductive Steps (step : σ → String → κ → σ → Prop) : σ → κ → List String → σ → κ → Prop
  | refl (s : σ) (cost : κ) : Steps step s cost [] s cost
  | head {s s' s'' : σ} {name : String} {names : List String} {price cost cost' : κ}
      (h : step s name price s') (rest : Steps step s' (Scale.add cost price) names s'' cost') :
      Steps step s cost (name :: names) s'' cost'

variable {step : σ → String → κ → σ → Prop}

theorem steps_nil {s s' : σ} {cost cost' : κ} :
    Steps step s cost [] s' cost' ↔ s = s' ∧ cost = cost' := by
  constructor
  · rintro ⟨⟩
    exact ⟨rfl, rfl⟩
  · rintro ⟨rfl, rfl⟩
    exact .refl ..

theorem steps_cons {s s' : σ} {cost cost' : κ} {name : String} {names : List String} :
    Steps step s cost (name :: names) s' cost' ↔
      ∃ price t, step s name price t ∧ Steps step t (Scale.add cost price) names s' cost' := by
  constructor
  · rintro (_ | ⟨h, rest⟩)
    exact ⟨_, _, h, rest⟩
  · rintro ⟨price, t, h, rest⟩
    exact .head h rest

/-- What each step of one system can follow, a run can follow. -/
theorem Steps.simulate (step' : τ → String → κ → τ → Prop) (R : σ → τ → Prop)
    (h : ∀ {s t name price s'}, R s t → step s name price s' → ∃ t', step' t name price t' ∧ R s' t')
    {s s' : σ} {t : τ} {cost cost' : κ} {names : List String} (hR : R s t)
    (hs : Steps step s cost names s' cost') : ∃ t', Steps step' t cost names t' cost' ∧ R s' t' := by
  induction hs generalizing t with
  | refl s cost => exact ⟨t, .refl .., hR⟩
  | head hstep _ ih =>
    obtain ⟨u, hu, hRu⟩ := h hR hstep
    obtain ⟨t', ht', hR'⟩ := ih hRu
    exact ⟨t', .head hu ht', hR'⟩

end Steps

/-! ## Tasks -/

/-- A ground action over the names of facts. -/
structure NamedAction (κ : Type) where
  name : String
  rule : Rule String
  cost : κ

/-- A ground task over the names of facts. -/
structure NamedTask (κ : Type) where
  init : List String
  actions : List (NamedAction κ)
  goal : List (Signed String)

namespace NamedTask

variable {κ : Type}

/-- An action of the task leads from one set of facts to another. -/
def Takes (n : NamedTask κ) (S : Set String) (name : String) (price : κ) (S' : Set String) : Prop :=
  ∃ a ∈ n.actions, a.name = name ∧ a.cost = price ∧ a.rule.Allows S ∧ a.rule.next S = S'

/-- The facts that hold initially. -/
def initial (n : NamedTask κ) : Set String := {a | a ∈ n.init}

/-- The names are those of actions that can be taken in turn and lead to the goal. -/
def IsPlan [Scale κ] (n : NamedTask κ) (names : List String) (cost : κ) : Prop :=
  ∃ S, Steps n.Takes n.initial (Scale.ofNat 0) names S cost ∧ AllHold S n.goal

end NamedTask

/-! ## Grounding -/

/-- The signed fact of a literal. -/
def Literal.named (binding : Binding) : Literal → Except Failure (Signed String)
  | .atom positive predicate args => do
    return (positive, atomName predicate (← binding.resolveAll args))
  | .equality .. => .error (.unsupported .equalityInEffect)

namespace Setting

variable {κ : Type} (setting : Setting κ)

/-- The signed facts of a condition, none if a literal that does not depend on the state is false. -/
def conditionNamed (binding : Binding) :
    List Literal → Except Failure (Option (List (Signed String)))
  | [] => .ok (some [])
  | l :: ls => do
    match ← setting.decide binding l with
    | some true => conditionNamed binding ls
    | some false => return none
    | none =>
      let x ← l.named binding
      return (← conditionNamed binding ls).map (x :: ·)

/-- The conditional effects whose conditions are possible. -/
def conditionalNamed (binding : Binding) :
    List (List Literal × List Literal) →
      Except Failure (List (List (Signed String) × List (Signed String)))
  | [] => .ok []
  | (condition, literals) :: rest => do
    match ← setting.conditionNamed binding condition with
    | none => conditionalNamed binding rest
    | some xs =>
      let ys ← literals.mapM (Literal.named binding)
      return (xs, ys) :: (← conditionalNamed binding rest)

variable [Scale κ]

/-- The ground action of a schema and its arguments, none if its condition is impossible. -/
def named (a : LiftedAction κ) (args : List String) : Except Failure (Option (NamedAction κ)) := do
  let binding := Binding.of (a.params.map (·.name)) args
  match ← setting.conditionNamed binding a.condition with
  | none => return none
  | some condition =>
    let effect ← a.effect.literals.mapM (Literal.named binding)
    let conditional ← setting.conditionalNamed binding a.effect.conditional
    let cost ← setting.cost binding a.effect.cost
    return some { name := atomName a.name args, rule := ⟨condition, effect, conditional⟩, cost }

theorem name_of_named {a : LiftedAction κ} {args : List String} {m : NamedAction κ}
    (h : setting.named a args = .ok (some m)) : m.name = atomName a.name args := by
  obtain ⟨condition, -, h⟩ := bind_eq_ok.1 h
  cases condition with
  | none => cases h
  | some xs =>
    obtain ⟨_, -, h⟩ := bind_eq_ok.1 h
    obtain ⟨_, -, h⟩ := bind_eq_ok.1 h
    obtain ⟨_, -, h⟩ := bind_eq_ok.1 h
    obtain rfl := Option.some.inj (Except.ok.inj h)
    rfl

/-- The ground actions of a schema for several lists of arguments. -/
def namedAll (a : LiftedAction κ) : List (List String) → Except Failure (List (NamedAction κ))
  | [] => .ok []
  | args :: rest => do
    match ← setting.named a args with
    | none => namedAll a rest
    | some action => return action :: (← namedAll a rest)

/-- The ground actions of a schema. -/
def instances (types objects : List TypedName) (a : LiftedAction κ) :
    Except Failure (List (NamedAction κ)) := do
  let found ← setting.assignments (setting.slots types objects a) (setting.closedChecks a)
  setting.namedAll a found

/-- The ground actions of several schemas. -/
def instancesAll (types objects : List TypedName) :
    List (LiftedAction κ) → Except Failure (List (NamedAction κ))
  | [] => .ok []
  | a :: rest => do
    return (← setting.instances types objects a) ++ (← instancesAll types objects rest)

end Setting

/-- The signed facts of a goal. An equality that is false is needed as a fact that no action adds. -/
def goalNamed : List Literal → Except Failure (List (Signed String))
  | [] => .ok []
  | .equality positive a b :: ls =>
    if (a == b) == positive then goalNamed ls
    else (fun xs => (true, atomName "=" [a, b]) :: xs) <$> goalNamed ls
  | l :: ls => do return (← l.named []) :: (← goalNamed ls)

section Task

variable {κ : Type} [Scale κ]

/-- What the grounding of a domain and a problem refers to. -/
def Setting.of (domain : Domain) (problem : Problem) (actions : List (LiftedAction κ))
    (initial : Initial κ) : Setting κ where
  initial := Std.HashSet.ofList initial.facts
  statics := Std.HashSet.ofList
    ((domain.predicates.map (·.name)).filter fun p =>
      !(Std.HashSet.ofList (changedPredicates actions)).contains p)
  values := initial.values
  usesCosts := problem.metric.isSome

/-- The fact of an initial entry, none if the entry gives a value to a function. -/
def initialFact? : Expr → Option String
  | .list (.atom predicate :: items) =>
    if predicate = "=" then none else some (atomName predicate (items.filterMap Expr.atom?))
  | _ => none

theorem initialFact?_eq_some {x : Expr} {fact : String} : initialFact? x = some fact ↔
    ∃ predicate items, x = .list (.atom predicate :: items) ∧ predicate ≠ "=" ∧
      atomName predicate (items.filterMap Expr.atom?) = fact := by
  constructor
  · intro h
    unfold initialFact? at h
    split at h
    · rename_i predicate items
      split at h
      · cases h
      · rename_i hne
        exact ⟨predicate, items, rfl, hne, Option.some.inj h⟩
    · cases h
  · rintro ⟨predicate, items, rfl, hne, rfl⟩
    rw [initialFact?, if_neg hne]

/-- The initial facts are those of the entries. -/
theorem facts_of_read {xs : List Expr} {values : Std.HashMap String κ} {initial : Initial κ}
    (h : Initial.read xs values = .ok initial) : initial.facts = xs.filterMap initialFact? := by
  have hvalue (items rest : List Expr) :
      (Expr.list (.atom "=" :: items) :: rest).filterMap initialFact? = rest.filterMap initialFact? := rfl
  fun_induction Initial.read xs values generalizing initial <;> try cases h
  case case1 => rfl
  case case4 ih => rw [hvalue, ih h]
  case case5 ih => rw [hvalue, ih h]
  case case8 predicate items rest _ hne ih =>
    obtain ⟨found, hfound, h⟩ := bind_eq_ok.1 h
    rw [← Except.ok.inj h]
    have hfact := initialFact?_eq_some.2 ⟨predicate, items, rfl, hne, rfl⟩
    rw [List.filterMap_cons_some hfact, ih hfound]

omit [Scale κ] in
theorem mem_changedPredicates {actions : List (LiftedAction κ)} {p : String} :
    p ∈ changedPredicates actions ↔
      ∃ a ∈ actions, ∃ l ∈ a.effect.allLiterals, l.predicate? = some p := by
  simp only [changedPredicates, List.mem_flatMap, List.mem_filterMap]

omit [Scale κ] in
theorem contains_statics {domain : Domain} {problem : Problem}
    {actions : List (LiftedAction κ)} {initial : Initial κ} {p : String} :
    (Setting.of domain problem actions initial).statics.contains p = true ↔
      p ∈ domain.predicates.map (·.name) ∧ p ∉ changedPredicates actions := by
  simp only [Setting.of, Std.HashSet.contains_ofList, List.contains_iff_mem, List.mem_filter,
    Bool.not_eq_true', ← Bool.not_eq_true]

/-- The objects of a task. -/
def objectsOf (domain : Domain) (problem : Problem) : List TypedName :=
  firstDeclarations (problem.objects ++ domain.constants)

/-- At most so many actions as a task may have. -/
def limited {α : Type} (xs : List α) : Except Failure (List α) :=
  if xs.length > maxActions then .error (.unsupported (.actionCount maxActions)) else .ok xs

theorem limited_eq_ok_iff {α : Type} {xs ys : List α} :
    limited xs = .ok ys ↔ xs.length ≤ maxActions ∧ xs = ys := by
  unfold limited
  split <;> simp <;> omega

/-- The ground task of a domain and a problem over the names of facts. -/
def NamedTask.of (domain : Domain) (problem : Problem) : Except Failure (NamedTask κ) := do
  let actions ← domain.schemas.mapM (LiftedAction.read (κ := κ))
  let initial ← Initial.read (κ := κ) problem.init ∅
  let setting := Setting.of domain problem actions initial
  let found ← limited (← setting.instancesAll domain.types (objectsOf domain problem) actions)
  let goal ← goalNamed (← readCondition problem.goal)
  return { init := initial.facts, actions := found, goal }

end Task

end Waymark.Ground
