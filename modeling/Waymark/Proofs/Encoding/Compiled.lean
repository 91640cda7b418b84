import Waymark.Proofs.Encoding.Augment
import Waymark.Proofs.Ground.Tagged

/-!
# The ground task with monitors

The ground actions of a task with monitors are those of the task, each with the rule of the monitors for
its schema, as far as the rule is not decided while grounding. The initial facts and the goal are those
of the task and those of the monitors.

* `Watcher.Monitors`: monitors that say what a watcher does, with fluents that a task does not use;
* `monitoredTask`: the ground task with what a watcher adds;
* `named_monitored`: it is the ground task of the domain and the problem with monitors;
* `exists_named_monitored`: a task with monitors can be grounded if the task can.
-/

namespace Waymark.Encoding

open Ground Planning Number

variable {ι κ : Type}

/-! ## Domains and problems -/

section Domains

variable (ws : List Watch) (domain : Domain)

/-- A further requirement, and nothing else. -/
theorem require_eq (flag : String) :
    ∃ requirements, domain.require flag = { domain with requirements } := by
  unfold Domain.require
  split
  · exact ⟨domain.requirements, rfl⟩
  · exact ⟨_, rfl⟩

theorem monitoredDomain_eq :
    ∃ requirements, monitoredDomain ws domain =
      { domain with
        requirements
        predicates := domain.predicates ++ (ws.flatMap (·.monitor.fluents)).map fun name => ⟨name, []⟩
        schemas := domain.schemas.map (watched ws) } := by
  unfold monitoredDomain
  obtain ⟨r, hr⟩ := require_eq
    { domain with
      predicates := domain.predicates ++ (ws.flatMap (·.monitor.fluents)).map fun name => ⟨name, []⟩
      schemas := domain.schemas.map (watched ws) } ":negative-preconditions"
  split
  · simp only [hr]
    split
    · exact require_eq _ _
    · exact ⟨r, rfl⟩
  · split
    · exact require_eq _ _
    · exact ⟨domain.requirements, rfl⟩

theorem objectsOf_monitored (problem : Problem) :
    objectsOf (monitoredDomain ws domain) (monitoredProblem ws problem) = objectsOf domain problem := by
  obtain ⟨_, h⟩ := monitoredDomain_eq ws domain
  rw [h]
  rfl

end Domains

/-- Monitors that say what a watcher does, with fluents that the task does not use. -/
structure Watcher.Monitors (w : Watcher ι Schema) (name : ι → String) (k : Nat) (ws : List Watch)
    (domain : Domain) (problem : Problem) : Prop where
  spells : w.Spells name (ws.flatMap (·.monitor.fluents)) (ws.flatMap (·.monitor.init))
    (addedGoals ws) (addedConditions ws) (addedEffects ws)
  fluent : ∀ c, Fluent (stem k) (name c)
  injective : Function.Injective name
  fresh : ∀ p ∈ usedPredicates domain problem, ¬ Fluent (stem k) p

/-! ## Facts of fluents -/

theorem fluentFact_injective {name : ι → String} (h : Function.Injective name) :
    Function.Injective (fluentFact name) := fun _ _ he => h (atomName_nil_injective he)

theorem fluentFact_mem_excludedFacts {name : ι → String} {k : Nat} {c : ι}
    (h : Fluent (stem k) (name c)) : fluentFact name c ∈ excludedFacts (Fluent (stem k)) :=
  fun _ args he => by_contra fun hp => atomName_ne hp h args he

section Reading

variable {name : ι → String} (hname : ∀ c, name c ∉ reserved)
include hname

theorem read_initial_append [Scale κ] (xs : List Expr) (cs : List ι) (values : Std.HashMap String κ) :
    Initial.read (xs ++ cs.map fun c => fluentAtom (name c)) values =
      (fun i : Initial κ => { i with facts := i.facts ++ cs.map (fluentFact name) }) <$>
        Initial.read xs values := by
  have hfluents (values : Std.HashMap String κ) :
      Initial.read (cs.map fun c => fluentAtom (name c)) values =
        .ok ⟨cs.map (fluentFact name), values⟩ := by
    induction cs with
    | nil => rfl
    | cons c cs ih =>
      have hc : name c ≠ "=" := fun h => hname c (by rw [h]; decide)
      rw [List.map_cons, fluentAtom, Initial.read, ih]
      · rfl
      · exact hc
  fun_induction Initial.read xs values
  case case4 hterm ih =>
    rw [List.cons_append, Initial.read]
    simp only [hterm]
    exact ih
  case case5 hterm _ hread ih =>
    rw [List.cons_append, Initial.read]
    simp only [hterm, hread]
    exact ih
  case case6 hterm hread =>
    rw [List.cons_append, Initial.read]
    simp only [hterm, hread]
    rfl
  case case7 hitems =>
    rw [List.cons_append, Initial.read]
    · rfl
    · exact hitems
  case case8 predicate items rest values hne ih =>
    rw [List.cons_append, Initial.read, ih]
    · rcases Initial.read rest values with e | found
      · rfl
      · rfl
    · exact hne
  case case1 => exact hfluents _
  all_goals rfl

theorem readCondition_monitoredGoal (goal : Expr) (xs : List (Signed ι)) :
    readCondition (.conjunction (goal.conjuncts ++ xs.map (fluentExpr name))) =
      (· ++ xs.map (fluentLiteral name)) <$> readCondition goal := by
  rw [readCondition_conjunction, readConditions_append, readConditions_conjuncts,
    readConditions_fluentExprs hname]
  rcases readCondition goal with e | ls
  · rfl
  · rfl

end Reading

theorem goalNamed_atom (positive : Bool) (predicate : String) (args : List String)
    (ls : List Literal) :
    goalNamed (.atom positive predicate args :: ls) =
      (do return (← Literal.named [] (.atom positive predicate args)) :: (← goalNamed ls)) := rfl

theorem goalNamed_fluents (name : ι → String) (xs : List (Signed ι)) :
    goalNamed (xs.map (fluentLiteral name)) = .ok (xs.map (Prod.map id (fluentFact name))) := by
  induction xs with
  | nil => rfl
  | cons x xs ih =>
    rw [List.map_cons, fluentLiteral, goalNamed_atom, ih]
    rfl

theorem goalNamed_append_fluents (name : ι → String) (ls : List Literal) (xs : List (Signed ι)) :
    goalNamed (ls ++ xs.map (fluentLiteral name)) =
      (· ++ xs.map (Prod.map id (fluentFact name))) <$> goalNamed ls := by
  induction ls with
  | nil => exact goalNamed_fluents name xs
  | cons l ls ih =>
    cases l with
    | atom positive predicate args =>
      rw [List.cons_append, goalNamed_atom, goalNamed_atom, ih]
      rcases Literal.named [] (.atom positive predicate args) with e | x
      · rfl
      · rcases goalNamed ls with e | ys
        · rfl
        · rfl
    | equality positive a b =>
      rw [List.cons_append, goalNamed, goalNamed, ih]
      split
      · rfl
      · rcases goalNamed ls with e | ys
        · rfl
        · rfl

/-! ## Instances -/

/-- The actions with what a rule for their schema leaves when some of it is known, without those that
it never allows. -/
def monitoredActions (w : Watcher ι Schema) (name : ι → String) (know : ι → Option Bool)
    (instances : List (Schema × NamedAction κ)) : List (NamedAction κ) :=
  instances.filterMap fun p => ((w.rule p.1).resolve know).map (augment name · p.2)

theorem monitoredActions_append (w : Watcher ι Schema) (name : ι → String) (know : ι → Option Bool)
    (xs ys : List (Schema × NamedAction κ)) :
    monitoredActions w name know (xs ++ ys) =
      monitoredActions w name know xs ++ monitoredActions w name know ys := List.filterMap_append

theorem monitoredActions_of_schema (w : Watcher ι Schema) (name : ι → String)
    (know : ι → Option Bool) (s : Schema) (ns : List (NamedAction κ)) :
    monitoredActions w name know (ns.map (s, ·)) =
      match (w.rule s).resolve know with
      | some r => ns.map (augment name r)
      | none => [] := by
  unfold monitoredActions
  rw [List.filterMap_map]
  cases h : (w.rule s).resolve know with
  | none =>
    refine List.filterMap_eq_nil_iff.2 fun n _ => ?_
    simp [h]
  | some r =>
    show _ = ns.map (augment name r)
    rw [← List.filterMap_eq_map]
    refine List.filterMap_congr fun n _ => ?_
    simp [h]

section Instances

variable [Scale κ] {F : String → Prop} {setting setting' : Setting κ} {name : ι → String}
  {w : Watcher ι Schema} {pairs : List (Schema × LiftedAction κ)}
  (h : AgreeOutside F setting setting') (ha : ∀ p ∈ pairs, p.2.Avoids F)
include h ha

theorem instancesAll_watched {types objects : List TypedName} {ns : List (NamedAction κ)}
    (hns : setting'.instancesAll types objects
      (pairs.map fun p => withRule name (w.rule p.1) p.2) = .ok ns) :
    ns = monitoredActions w name (known setting' name) (setting.tagged types objects pairs) := by
  induction pairs generalizing ns with
  | nil => exact (Except.ok.inj hns).symm
  | cons p pairs ih =>
    obtain ⟨hp, hpairs⟩ := List.forall_mem_cons.1 ha
    obtain ⟨xs, hxs, hns⟩ := bind_eq_ok.1 hns
    obtain ⟨ys, hys, hns⟩ := bind_eq_ok.1 hns
    rw [← Except.ok.inj hns, ih hpairs hys, Setting.tagged, Setting.tagged, List.flatMap_cons,
      monitoredActions_append, monitoredActions_of_schema]
    refine congrArg (· ++ _) ?_
    cases hr : (w.rule p.1).resolve (known setting' name) with
    | none =>
      rw [instances_withRule_of_none h hp hr] at hxs
      obtain ⟨_, -, hxs⟩ := bind_eq_ok.1 hxs
      exact (Except.ok.inj hxs).symm
    | some r =>
      rw [instances_withRule h hp hr] at hxs
      obtain ⟨zs, hzs, rfl⟩ := map_eq_ok.1 hxs
      simp only [Setting.found, hzs]

theorem exists_instancesAll_watched {types objects : List TypedName} {ns : List (NamedAction κ)}
    (hns : setting.instancesAll types objects (pairs.map (·.2)) = .ok ns) :
    ∃ ns', setting'.instancesAll types objects
      (pairs.map fun p => withRule name (w.rule p.1) p.2) = .ok ns' := by
  induction pairs generalizing ns with
  | nil => exact ⟨[], rfl⟩
  | cons p pairs ih =>
    obtain ⟨hp, hpairs⟩ := List.forall_mem_cons.1 ha
    obtain ⟨xs, hxs, hns⟩ := bind_eq_ok.1 hns
    obtain ⟨ys, hys, -⟩ := bind_eq_ok.1 hns
    obtain ⟨zs, hzs⟩ := ih hpairs hys
    suffices hone : ∃ xs', setting'.instances types objects (withRule name (w.rule p.1) p.2) = .ok xs' by
      obtain ⟨xs', hxs'⟩ := hone
      exact ⟨xs' ++ zs, bind_eq_ok.2 ⟨xs', hxs', bind_eq_ok.2 ⟨zs, hzs, rfl⟩⟩⟩
    cases hr : (w.rule p.1).resolve (known setting' name) with
    | none =>
      obtain ⟨found, hfound, -⟩ := bind_eq_ok.1 hxs
      obtain ⟨b, hb, -⟩ := bind_eq_ok.1 hfound
      exact ⟨[], by rw [instances_withRule_of_none h hp hr, hb]; rfl⟩
    | some r => exact ⟨_, by rw [instances_withRule h hp hr, hxs]; rfl⟩

end Instances

/-! ## Settings -/

theorem predicate_fluentEffect {name : ι → String} {r : Rule ι} {p : String} :
    (∃ l ∈ (fluentEffect (κ := κ) name r).allLiterals, l.predicate? = some p) ↔
      ∃ c ∈ r.changed, name c = p := by
  constructor
  · rintro ⟨l, hl, hp⟩
    rcases List.mem_append.1 hl with hl | hl
    · obtain ⟨x, hx, rfl⟩ := List.mem_map.1 hl
      exact ⟨x.2, ⟨x, .inl hx, rfl⟩, Option.some.inj hp⟩
    · obtain ⟨_, hc, hl⟩ := List.mem_flatMap.1 hl
      obtain ⟨c, hmem, rfl⟩ := List.mem_map.1 hc
      obtain ⟨x, hx, rfl⟩ := List.mem_map.1 hl
      exact ⟨x.2, ⟨x, .inr ⟨c, hmem, hx⟩, rfl⟩, Option.some.inj hp⟩
  · rintro ⟨_, ⟨x, hx | ⟨c, hc, hx⟩, rfl⟩, rfl⟩
    · exact ⟨_, List.mem_append_left _ (List.mem_map_of_mem hx), rfl⟩
    · exact ⟨_, List.mem_append_right _ (List.mem_flatMap.2
        ⟨_, List.mem_map_of_mem hc, List.mem_map_of_mem hx⟩), rfl⟩

theorem mem_allLiterals_append {e f : Effect κ} {l : Literal} :
    l ∈ (e.append f).allLiterals ↔ l ∈ e.allLiterals ∨ l ∈ f.allLiterals := by
  simp only [Effect.allLiterals, Effect.append, List.flatMap_append, List.mem_append]
  tauto

theorem mem_changedPredicates_withRule {name : ι → String} {w : Watcher ι Schema}
    {pairs : List (Schema × LiftedAction κ)} {p : String} :
    p ∈ changedPredicates (pairs.map fun x => withRule name (w.rule x.1) x.2) ↔
      p ∈ changedPredicates (pairs.map (·.2)) ∨
        ∃ x ∈ pairs, ∃ c ∈ (w.rule x.1).changed, name c = p := by
  have hone (x : Schema × LiftedAction κ) :
      (∃ l ∈ (withRule name (w.rule x.1) x.2).effect.allLiterals, l.predicate? = some p) ↔
        (∃ l ∈ x.2.effect.allLiterals, l.predicate? = some p) ∨
          ∃ c ∈ (w.rule x.1).changed, name c = p := by
    rw [← predicate_fluentEffect (κ := κ), ← exists_or]
    refine exists_congr fun l => ?_
    rw [withRule, mem_allLiterals_append, or_and_right]
  simp only [mem_changedPredicates, List.mem_map, exists_exists_and_eq_and, hone, and_or_left,
    exists_or]

section Settings

variable {w : Watcher ι Schema} {name : ι → String} {k : Nat} {ws : List Watch}
  {domain : Domain} {problem : Problem} (h : w.Monitors name k ws domain problem)
  {pairs : List (Schema × LiftedAction κ)} {initial : Initial κ}
include h

/-- The setting with monitors. -/
def monitoredSetting (w : Watcher ι Schema) (name : ι → String) (ws : List Watch) (domain : Domain)
    (problem : Problem) (pairs : List (Schema × LiftedAction κ)) (initial : Initial κ) : Setting κ :=
  Setting.of (monitoredDomain ws domain) (monitoredProblem ws problem)
    (pairs.map fun p => withRule name (w.rule p.1) p.2)
    { initial with facts := initial.facts ++ w.start.map (fluentFact name) }

theorem Watcher.Monitors.agreeOutside :
    AgreeOutside (Fluent (stem k)) (Setting.of domain problem (pairs.map (·.2)) initial)
      (monitoredSetting w name ws domain problem pairs initial) where
  statics p hp := by
    rw [Bool.eq_iff_iff, monitoredSetting, contains_statics, contains_statics,
      mem_changedPredicates_withRule]
    obtain ⟨_, hdomain⟩ := monitoredDomain_eq ws domain
    have hfluent : p ∉ ws.flatMap (·.monitor.fluents) := fun hmem => by
      obtain ⟨c, rfl⟩ := h.spells.fluents p hmem
      exact hp (h.fluent c)
    have hchanged : ¬ ∃ x ∈ pairs, ∃ c ∈ (w.rule x.1).changed, name c = p := by
      rintro ⟨_, -, c, -, rfl⟩
      exact hp (h.fluent c)
    have hnames (fluents : List String) :
        (fluents.map fun name => Predicate.mk name []).map (·.name) = fluents := by
      rw [List.map_map]
      exact List.map_id fluents
    rw [hdomain, or_iff_left hchanged, List.map_append, hnames, List.mem_append, or_iff_left hfluent]
  initial p args hp := by
    rw [Bool.eq_iff_iff]
    simp only [monitoredSetting, Setting.of, Std.HashSet.contains_ofList, List.contains_iff_mem,
      List.mem_append, List.mem_map]
    refine or_iff_left ?_
    rintro ⟨c, -, hc⟩
    exact atomName_ne hp (h.fluent c) args hc.symm
  values := rfl
  usesCosts := rfl

/-- What is known of fluents is right initially. -/
theorem Watcher.Monitors.agrees (hfacts : ∀ n ∈ initial.facts, n ∉ excludedFacts (Fluent (stem k))) :
    Rule.Agrees (known (monitoredSetting w name ws domain problem pairs initial) name)
      {c | c ∈ w.start} := by
  intro c b hb
  unfold known at hb
  split at hb
  · rw [← Option.some.inj hb]
    simp only [monitoredSetting, Setting.of, Std.HashSet.contains_ofList, List.contains_iff_mem,
      List.mem_append, Set.mem_ofPred_eq]
    rw [List.mem_map_of_injective (fluentFact_injective h.injective)]
    exact (or_iff_right fun hc => hfacts _ hc (fluentFact_mem_excludedFacts (h.fluent c))).symm
  · cases hb

omit h in
/-- No action changes a fluent of which something is known. -/
theorem not_changed_of_known {c : ι}
    (hc : (known (monitoredSetting w name ws domain problem pairs initial) name c).isSome) :
    ∀ p ∈ pairs, c ∉ (w.rule p.1).changed := by
  intro p hp hmem
  unfold known at hc
  split at hc
  · rename_i hstatic
    rw [monitoredSetting, contains_statics, mem_changedPredicates_withRule] at hstatic
    exact hstatic.2 (.inr ⟨p, hp, c, hmem, rfl⟩)
  · cases hc

end Settings

/-! ## Tasks -/

/-- The ground task with what a watcher adds, when some of it is known. -/
def monitoredTask (w : Watcher ι Schema) (name : ι → String) (know : ι → Option Bool)
    (b : TaggedTask κ) : NamedTask κ where
  init := b.init ++ w.start.map (fluentFact name)
  actions := monitoredActions w name know b.instances
  goal := b.goal ++ w.goal.map (Prod.map id (fluentFact name))

/-- What is known of the cells of a watcher is right initially, and no action changes it. -/
structure Watcher.Knows (w : Watcher ι Schema) (know : ι → Option Bool) (b : TaggedTask κ) : Prop where
  agrees : Rule.Agrees know {c | c ∈ w.start}
  unchanged : ∀ p ∈ b.instances, ∀ c, (know c).isSome → c ∉ (w.rule p.1).changed

section Tasks

variable [Scale κ] {w : Watcher ι Schema} {name : ι → String} {k : Nat} {ws : List Watch}
  {domain : Domain} {problem : Problem} (h : w.Monitors name k ws domain problem)
include h

theorem Watcher.Monitors.not_reserved (c : ι) : name c ∉ reserved := not_mem_reserved (h.fluent c)

/-- What grounding a task with monitors amounts to. -/
theorem named_monitored_eq :
    NamedTask.of (κ := κ) (monitoredDomain ws domain) (monitoredProblem ws problem) =
      (do
        let pairs ← readSchemas domain.schemas
        let initial ← Initial.read (κ := κ) problem.init ∅
        let setting := monitoredSetting w name ws domain problem pairs initial
        let found ← limited (← setting.instancesAll domain.types (objectsOf domain problem)
          (pairs.map fun p => withRule name (w.rule p.1) p.2))
        let goal ← goalNamed (← readCondition problem.goal)
        return {
          init := initial.facts ++ w.start.map (fluentFact name)
          actions := found
          goal := goal ++ w.goal.map (Prod.map id (fluentFact name)) }) := by
  obtain ⟨_, hdomain⟩ := monitoredDomain_eq ws domain
  have hschemas : (monitoredDomain ws domain).schemas.mapM (LiftedAction.read (κ := κ)) =
      List.map (fun p => withRule name (w.rule p.1) p.2) <$> readSchemas domain.schemas := by
    rw [hdomain]
    refine mapM_map_of fun s _ => ?_
    rw [read_watched h.not_reserved h.spells, Functor.map_map]
  have htypes : (monitoredDomain ws domain).types = domain.types := by rw [hdomain]
  have hinit : Initial.read (κ := κ) (monitoredProblem ws problem).init ∅ =
      (fun i => { i with facts := i.facts ++ w.start.map (fluentFact name) }) <$>
        Initial.read problem.init ∅ := by
    rw [monitoredProblem, h.spells.init]
    exact read_initial_append h.not_reserved _ _ _
  have hgoal : readCondition (monitoredProblem ws problem).goal =
      (· ++ w.goal.map (fluentLiteral name)) <$> readCondition problem.goal := by
    rw [monitoredProblem, h.spells.goal]
    exact readCondition_monitoredGoal h.not_reserved _ _
  unfold NamedTask.of
  rw [hschemas, hinit, hgoal, htypes, objectsOf_monitored]
  rcases readSchemas (κ := κ) domain.schemas with e | pairs
  · rfl
  rcases Initial.read (κ := κ) problem.init ∅ with e | initial
  · rfl
  show ((monitoredSetting w name ws domain problem pairs initial).instancesAll _ _ _ >>= _) =
    ((monitoredSetting w name ws domain problem pairs initial).instancesAll _ _ _ >>= _)
  refine bind_congr fun all => bind_congr fun found => ?_
  rcases readCondition problem.goal with e | literals
  · rfl
  show (goalNamed (literals ++ w.goal.map (fluentLiteral name)) >>= _) = (goalNamed literals >>= _)
  rw [goalNamed_append_fluents]
  rcases goalNamed literals with e | goal
  · rfl
  · rfl

theorem avoids_of_readSchemas {pairs : List (Schema × LiftedAction κ)}
    (hpairs : readSchemas domain.schemas = .ok pairs) :
    ∀ p ∈ pairs, p.2.Avoids (Fluent (stem k)) := by
  intro p hp
  obtain ⟨hs, hread⟩ := readSchemas_eq_ok hpairs hp
  refine LiftedAction.avoids_of_read (fun q hq => h.fresh q ?_) hread
  exact List.mem_append_left _ (List.mem_append_left _ (List.mem_flatMap.2 ⟨p.1, hs, hq⟩))

/-- **Grounding with monitors.** The ground task of a domain and a problem with monitors is that of the
domain and the problem with what the watcher adds. -/
theorem named_monitored {n : NamedTask κ}
    (hn : NamedTask.of (monitoredDomain ws domain) (monitoredProblem ws problem) = .ok n) :
    ∃ b know, TaggedTask.of domain problem = .ok b ∧ w.Knows know b ∧
      n = monitoredTask w name know b := by
  rw [named_monitored_eq h] at hn
  obtain ⟨pairs, hpairs, hn⟩ := bind_eq_ok.1 hn
  obtain ⟨initial, hinitial, hn⟩ := bind_eq_ok.1 hn
  obtain ⟨all, hall, hn⟩ := bind_eq_ok.1 hn
  obtain ⟨found, hfound, hn⟩ := bind_eq_ok.1 hn
  obtain ⟨literals, hliterals, hn⟩ := bind_eq_ok.1 hn
  obtain ⟨goal, hgoal, hn⟩ := bind_eq_ok.1 hn
  refine ⟨_, known (monitoredSetting w name ws domain problem pairs initial) name,
    bind_eq_ok.2 ⟨pairs, hpairs, bind_eq_ok.2 ⟨initial, hinitial, bind_eq_ok.2
      ⟨literals, hliterals, bind_eq_ok.2 ⟨goal, hgoal, rfl⟩⟩⟩⟩, ⟨?agrees, ?unchanged⟩, ?task⟩
  case agrees =>
    refine h.agrees (avoids_initial (fun q hq => h.fresh q ?_) hinitial)
    exact List.mem_append_left _ (List.mem_append_right _ hq)
  case unchanged =>
    intro p hp c hc
    obtain ⟨pair, hpair, hp⟩ := List.mem_flatMap.1 hp
    obtain ⟨_, -, rfl⟩ := List.mem_map.1 hp
    exact not_changed_of_known hc pair hpair
  case task =>
    obtain ⟨-, rfl⟩ := limited_eq_ok_iff.1 hfound
    have hactions : all = monitoredActions w name _ _ :=
      instancesAll_watched h.agreeOutside (avoids_of_readSchemas h hpairs) hall
    rw [← Except.ok.inj hn, hactions]
    rfl

/-- A task with monitors can be grounded if the task can. -/
theorem exists_named_monitored {n : NamedTask κ} (hn : NamedTask.of domain problem = .ok n) :
    ∃ n' : NamedTask κ,
      NamedTask.of (monitoredDomain ws domain) (monitoredProblem ws problem) = .ok n' := by
  unfold NamedTask.of at hn
  rw [mapM_read] at hn
  obtain ⟨_, hp, hn⟩ := bind_eq_ok.1 hn
  obtain ⟨pairs, hpairs, rfl⟩ := map_eq_ok.1 hp
  obtain ⟨initial, hinitial, hn⟩ := bind_eq_ok.1 hn
  obtain ⟨all, hall, hn⟩ := bind_eq_ok.1 hn
  obtain ⟨found, hfound, hn⟩ := bind_eq_ok.1 hn
  obtain ⟨literals, hliterals, hn⟩ := bind_eq_ok.1 hn
  obtain ⟨goal, hgoal, -⟩ := bind_eq_ok.1 hn
  have ha := avoids_of_readSchemas h hpairs
  obtain ⟨all', hall'⟩ : ∃ ns, (monitoredSetting w name ws domain problem pairs initial).instancesAll
      domain.types (objectsOf domain problem) (pairs.map fun p => withRule name (w.rule p.1) p.2) =
      .ok ns := exists_instancesAll_watched h.agreeOutside ha hall
  have hactions : all' = monitoredActions w name _ _ :=
    instancesAll_watched h.agreeOutside ha hall'
  have hlength : all'.length ≤ all.length := by
    rw [hactions, ← tagged_of_instancesAll hall, List.length_map]
    exact List.length_filterMap_le _ _
  obtain ⟨hle, rfl⟩ := limited_eq_ok_iff.1 hfound
  have hlimited : limited all' = .ok all' := limited_eq_ok_iff.2 ⟨hlength.trans hle, rfl⟩
  exact ⟨_, (named_monitored_eq h).trans (bind_eq_ok.2 ⟨pairs, hpairs, bind_eq_ok.2 ⟨initial, hinitial,
    bind_eq_ok.2 ⟨all', hall', bind_eq_ok.2 ⟨all', hlimited, bind_eq_ok.2 ⟨literals, hliterals,
      bind_eq_ok.2 ⟨goal, hgoal, rfl⟩⟩⟩⟩⟩⟩)⟩

end Tasks

end Waymark.Encoding
