import Mathlib.Tactic
import Waymark.Proofs.Ground.Occurrence
import Waymark.Proofs.Ground.Path

/-!
# Schemas without parameters

A schema without parameters has at most one ground action, which consists of its own literals. A domain of
such schemas has a ground task that can be read off, if no condition mentions a static literal and nothing
has a cost.

* `LiftedAction.bare`: the ground action of a schema without parameters;
* `instancesAll_eq_mapM_bare`: such schemas yield these actions;
* `exists_groundFully_of_bare`: the ground task of such a domain;
* `outbox`: a domain in which a message is drafted, queued and sent, with its ground task.
-/

namespace Waymark.Ground

open Planning Number

variable {κ : Type} {setting : Setting κ} {binding : Binding}

/-! ## Actions -/

/-- The signed facts of a conditional effect. -/
def conditionalNames (binding : Binding) (c : List Literal × List Literal) :
    Except Failure (List (Signed String) × List (Signed String)) := do
  let condition ← c.1.mapM (Literal.named binding)
  let effect ← c.2.mapM (Literal.named binding)
  return (condition, effect)

theorem conditionalNamed_of_not_isStatic {cs : List (List Literal × List Literal)}
    (h : ∀ c ∈ cs, ∀ l ∈ c.1, setting.isStatic l = false) :
    setting.conditionalNamed binding cs = cs.mapM (conditionalNames binding) := by
  induction cs with
  | nil => rfl
  | cons c cs ih =>
    obtain ⟨hc, hcs⟩ := List.forall_mem_cons.1 h
    rw [Setting.conditionalNamed, conditionNamed_of_not_isStatic hc, ih hcs, List.mapM_cons]
    unfold conditionalNames
    simp only [bind_map_left, bind_assoc, pure_bind]

variable [Scale κ]

/-- The ground action of a schema without parameters, if nothing has a cost and no literal is static. -/
def LiftedAction.bare (a : LiftedAction κ) : Except Failure (NamedAction κ) := do
  let condition ← a.condition.mapM (Literal.named [])
  let effect ← a.effect.literals.mapM (Literal.named [])
  let conditional ← a.effect.conditional.mapM (conditionalNames [])
  return { name := atomName a.name [], rule := ⟨condition, effect, conditional⟩, cost := Scale.ofNat 1 }

section Instances

variable (hcosts : setting.usesCosts = false)
include hcosts

theorem named_eq_bare {a : LiftedAction κ} (hdynamic : setting.Dynamic a) (hparams : a.params = []) :
    setting.named a [] = some <$> a.bare := by
  unfold Setting.named LiftedAction.bare Setting.cost
  dsimp only
  rw [hparams, hcosts, conditionNamed_of_not_isStatic hdynamic.condition,
    conditionalNamed_of_not_isStatic hdynamic.conditional]
  simp only [bind_map_left, map_bind, map_pure]
  rfl

theorem instances_eq_bare {a : LiftedAction κ} (hdynamic : setting.Dynamic a) (hparams : a.params = [])
    (types objects : List TypedName) : setting.instances types objects a = (fun n => [n]) <$> a.bare := by
  have hslots : setting.slots types objects a = [] := by simp [Setting.slots, hparams]
  have hchecks : setting.closedChecks a = [] := by
    rw [Setting.closedChecks, List.filter_eq_nil_iff]
    intro l hl
    simp [hdynamic.condition l hl]
  have hassignments : setting.assignments [] [] = .ok [[]] := rfl
  rw [Setting.instances, hslots, hchecks, hassignments]
  show setting.namedAll a [[]] = _
  rw [Setting.namedAll, named_eq_bare hcosts hdynamic hparams]
  simp only [bind_map_left]
  rfl

theorem instancesAll_eq_mapM_bare {actions : List (LiftedAction κ)} (hdynamic : ∀ a ∈ actions, setting.Dynamic a)
    (hparams : ∀ a ∈ actions, a.params = []) (types objects : List TypedName) :
    setting.instancesAll types objects actions = actions.mapM LiftedAction.bare := by
  induction actions with
  | nil => rfl
  | cons a actions ih =>
    obtain ⟨ha, hactions⟩ := List.forall_mem_cons.1 hdynamic
    obtain ⟨hp, hparams⟩ := List.forall_mem_cons.1 hparams
    rw [Setting.instancesAll, instances_eq_bare hcosts ha hp, ih hactions hparams, List.mapM_cons]
    simp only [bind_map_left]
    rfl

end Instances

/-! ## Tasks -/

variable {domain : Domain} {problem : Problem} {actions : List (LiftedAction κ)} {initial : Initial κ}

omit [Scale κ] in
/-- A literal is not static if an effect mentions its predicate. -/
theorem isStatic_of_mem_changedPredicates {l : Literal} {p : String} (hp : l.predicate? = some p)
    (hchanged : p ∈ changedPredicates actions) :
    (Setting.of domain problem actions initial).isStatic l = false := by
  cases l with
  | equality => cases hp
  | atom positive predicate args =>
    obtain rfl := Option.some.inj hp
    rw [Setting.isStatic, Bool.eq_false_iff]
    exact fun hstatic => (contains_statics.1 hstatic).2 hchanged

/-- The schema has no parameters, and its conditions mention predicates that effects mention. -/
def LiftedAction.isBare (actions : List (LiftedAction κ)) (a : LiftedAction κ) : Bool :=
  a.params.isEmpty && (a.condition ++ a.effect.conditional.flatMap (·.1)).all fun l =>
    l.predicate?.any (changedPredicates actions).contains

omit [Scale κ] in
theorem dynamic_of_isBare {a : LiftedAction κ} (h : a.isBare actions = true) :
    (Setting.of domain problem actions initial).Dynamic a := by
  have hstatic (l : Literal) (hl : l ∈ a.condition ++ a.effect.conditional.flatMap (·.1)) :
      (Setting.of domain problem actions initial).isStatic l = false := by
    have hany := List.all_eq_true.1 (Bool.and_eq_true_iff.1 h).2 l hl
    cases hp : l.predicate? with
    | none => simp [hp] at hany
    | some p => exact isStatic_of_mem_changedPredicates hp (by simpa [hp] using hany)
  refine ⟨fun l hl => hstatic l (List.mem_append_left _ hl), fun c hc l hl => hstatic l ?_⟩
  exact List.mem_append_right _ (List.mem_flatMap.2 ⟨c, hc, hl⟩)

/-- The named task of a domain of schemas without parameters, if nothing has a cost and no condition mentions
a static literal. -/
def bareTask (domain : Domain) (problem : Problem) : Option (NamedTask κ) := do
  let schemas ← (domain.schemas.mapM (LiftedAction.read (κ := κ))).toOption
  let initial ← (Initial.read (κ := κ) problem.init ∅).toOption
  let actions ← (schemas.mapM LiftedAction.bare).toOption
  let goal ← (readCondition problem.goal >>= goalNamed).toOption
  if schemas.all (·.isBare schemas) && problem.metric.isNone && actions.length ≤ maxActions then
    some { init := initial.facts, actions, goal }
  else none

/-- **The task of schemas without parameters.** Before actions are dropped, it is the one that the literals of
the schemas make up, with the facts numbered in the order in which they occur. -/
theorem exists_groundFully_of_bare {n : NamedTask κ} (h : bareTask domain problem = some n) :
    ∃ facts : FactTable, facts.names = (n.places #[]).2 ∧
      Task.groundFully domain problem = .ok ((n.places #[]).1 facts) := by
  obtain ⟨schemas, hschemas, h⟩ := Option.bind_eq_some_iff.1 h
  obtain ⟨initial, hinitial, h⟩ := Option.bind_eq_some_iff.1 h
  obtain ⟨actions, hactions, h⟩ := Option.bind_eq_some_iff.1 h
  obtain ⟨goal, hgoal, h⟩ := Option.bind_eq_some_iff.1 h
  rw [toOption_eq_some] at hschemas hinitial hactions hgoal
  obtain ⟨literals, hliterals, hgoal⟩ := bind_eq_ok.1 hgoal
  obtain ⟨hcond, h⟩ := Option.ite_none_right_eq_some.1 h
  obtain rfl := Option.some.inj h
  simp only [Bool.and_eq_true, List.all_eq_true, Option.isNone_iff_eq_none, decide_eq_true_eq] at hcond
  obtain ⟨⟨hbare, hmetric⟩, hlimit⟩ := hcond
  have hdynamic : ∀ a ∈ schemas, (Setting.of domain problem schemas initial).Dynamic a :=
    fun a ha => dynamic_of_isBare (hbare a ha)
  have hparams : ∀ a ∈ schemas, a.params = [] := fun a ha =>
    List.isEmpty_iff.1 (Bool.and_eq_true_iff.1 (hbare a ha)).1
  have hcosts : (Setting.of domain problem schemas initial).usesCosts = false := by
    rw [Setting.of, hmetric]
    rfl
  refine exists_groundFully_of_dynamic hschemas hinitial hdynamic ?_
  rw [← instancesAll_eq_mapM_bare hcosts hdynamic hparams domain.types (objectsOf domain problem)] at hactions
  refine bind_eq_ok.2 ⟨_, hschemas, bind_eq_ok.2 ⟨_, hinitial, bind_eq_ok.2 ⟨_, hactions, ?_⟩⟩⟩
  refine bind_eq_ok.2 ⟨_, limited_eq_ok_iff.2 ⟨hlimit, rfl⟩, bind_eq_ok.2 ⟨_, hliterals, ?_⟩⟩
  exact bind_eq_ok.2 ⟨_, hgoal, rfl⟩

/-- The same, with the numbers read off. -/
theorem exists_groundFully_of_places {n : NamedTask κ} {task : FactTable → Task κ} {names : Array String}
    (h : bareTask domain problem = some n) (hplaces : n.places #[] = (task, names)) :
    ∃ facts : FactTable, facts.names = names ∧ Task.groundFully domain problem = .ok (task facts) := by
  obtain ⟨facts, hnames, hfull⟩ := exists_groundFully_of_bare h
  rw [hplaces] at hnames hfull
  exact ⟨facts, hnames, hfull⟩

/-- The task of schemas without parameters, if the relaxation reaches all actions. -/
theorem exists_ground_of_bare {n : NamedTask κ} {task : FactTable → Task κ} {names : Array String}
    (h : bareTask domain problem = some n) (hplaces : n.places #[] = (task, names))
    (hpruned : ∀ facts : FactTable, facts.names = names → (task facts).pruned = task facts) :
    ∃ facts : FactTable, facts.names = names ∧ Task.ground domain problem = .ok (task facts) := by
  obtain ⟨facts, hnames, hfull⟩ := exists_groundFully_of_places h hplaces
  refine ⟨facts, hnames, ?_⟩
  rw [Task.ground, hfull]
  exact congrArg Except.ok (hpruned facts hnames)

/-! ## An example -/

section Outbox

/-- An atom without arguments. -/
def atomExpr (predicate : String) : Expr := .list [.atom predicate]

/-- A domain in which a message is drafted, put in a queue and sent. A message is also sent, and logged, when
it is put in a queue while another one waits in it. -/
def outbox : Domain where
  name := "outbox"
  predicates := [⟨"drafted", []⟩, ⟨"queued", []⟩, ⟨"sent", []⟩, ⟨"logged", []⟩]
  schemas := [
    { name := "draft", condition := none, effect := some (atomExpr "drafted") },
    { name := "submit"
      condition := some (atomExpr "drafted")
      effect := some (.list [.atom "and", .list [.atom "not", atomExpr "drafted"], atomExpr "queued",
        .list [.atom "when", atomExpr "queued", .list [.atom "and", atomExpr "sent", atomExpr "logged"]]]) },
    { name := "flush", condition := some (atomExpr "queued"), effect := some (atomExpr "sent") }]

/-- The problem to send a message. -/
def message : Problem where
  name := "message"
  domain := "outbox"
  goal := atomExpr "sent"

/-- The facts by number. -/
def outboxNames : Array String := #["(drafted)", "(queued)", "(sent)", "(logged)"]

/-- The ground task of the domain and the problem. -/
def outboxTask (facts : FactTable) : Task κ where
  facts
  init := []
  actions := #[
    { name := "(draft)", needs := [], forbids := [], adds := [0], deletes := [], conditional := []
      cost := Scale.ofNat 1 },
    { name := "(submit)", needs := [0], forbids := [], adds := [1], deletes := [0]
      conditional := [⟨[1], [], [2, 3], []⟩], cost := Scale.ofNat 1 },
    { name := "(flush)", needs := [1], forbids := [], adds := [2], deletes := [], conditional := []
      cost := Scale.ofNat 1 }]
  goalNeeds := [2]
  goalForbids := []

/-- To draft a message, to put it in the queue and to send it is a plan, on which nothing is logged. -/
theorem exists_plan_outbox : ∃ facts : FactTable, facts.names = outboxNames ∧
    Task.ground (κ := κ) outbox message = .ok (outboxTask facts) ∧
    (outboxTask (κ := κ) facts).IsPlanVia [0, 1, 2] [⟨#[0]⟩, ⟨#[1]⟩, ⟨#[2]⟩, ⟨#[6]⟩] := by
  have hbare : bareTask (κ := κ) outbox message = some {
      init := []
      actions := [
        ⟨"(draft)", { effect := [(true, "(drafted)")] }, Scale.ofNat 1⟩,
        ⟨"(submit)", ⟨[(true, "(drafted)")], [(false, "(drafted)"), (true, "(queued)")],
          [([(true, "(queued)")], [(true, "(sent)"), (true, "(logged)")])]⟩, Scale.ofNat 1⟩,
        ⟨"(flush)", { condition := [(true, "(queued)")], effect := [(true, "(sent)")] }, Scale.ofNat 1⟩]
      goal := [(true, "(sent)")] } := rfl
  have hpruned (facts : FactTable) (hnames : facts.names = outboxNames) :
      (outboxTask (κ := κ) facts).pruned = outboxTask facts := by
    obtain ⟨names, numbers, hnumbers⟩ := facts
    subst hnames
    cbv
  obtain ⟨facts, hnames, hground⟩ := exists_ground_of_bare hbare (by
    simp only [NamedTask.places, actionPlaces, effectPlaces, splitPlaces,
      List.mapM_cons, List.mapM_nil, Naming.pure_eq, Naming.bind_eq]
    cbv) hpruned
  refine ⟨facts, hnames, hground, ?_⟩
  obtain ⟨names, numbers, hnumbers⟩ := facts
  subst hnames
  exact ⟨by cbv, ⟨#[6]⟩, rfl, by cbv⟩

end Outbox

end Waymark.Ground
