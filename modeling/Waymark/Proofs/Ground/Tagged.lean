import Waymark.Proofs.Encoding.Reading
import Waymark.Proofs.Ground.Named

/-!
# Ground tasks whose actions know their schemas

The ground actions of a task with the schemas that they are instances of, however many they are. Their
names begin with the names of their schemas, and their rules are over the predicates that the task uses.

* `TaggedTask`, `TaggedTask.of`: ground tasks with schemas;
* `TaggedTask.of_named`: without the schemas they are ground tasks over names;
* `excludedFacts`, `TaggedTask.Avoids`: tasks that say nothing about some predicates, with
  `TaggedTask.avoids_of`.
-/

namespace Waymark.Ground

open Planning Number

/-! ## Tasks -/

/-- A ground task over names whose actions know their schemas. -/
structure TaggedTask (κ : Type) where
  init : List String
  instances : List (Schema × NamedAction κ)
  goal : List (Signed String)

/-- The task without the schemas. -/
def TaggedTask.toNamed {κ : Type} (b : TaggedTask κ) : NamedTask κ :=
  ⟨b.init, b.instances.map (·.2), b.goal⟩

section Of

variable {κ : Type} [Scale κ]

/-- Schemas with what they are read as. -/
def readSchemas (schemas : List Schema) : Except Failure (List (Schema × LiftedAction κ)) :=
  schemas.mapM fun s => (s, ·) <$> LiftedAction.read s

/-- The instances of a schema, none if making them fails. -/
def Setting.found (setting : Setting κ) (types objects : List TypedName) (a : LiftedAction κ) :
    List (NamedAction κ) :=
  match setting.instances types objects a with
  | .ok ns => ns
  | .error _ => []

/-- The instances of schemas, each with its schema. -/
def Setting.tagged (setting : Setting κ) (types objects : List TypedName)
    (pairs : List (Schema × LiftedAction κ)) : List (Schema × NamedAction κ) :=
  pairs.flatMap fun p => (setting.found types objects p.2).map (p.1, ·)

/-- The ground actions of a domain and a problem with their schemas. -/
def TaggedTask.of (domain : Domain) (problem : Problem) : Except Failure (TaggedTask κ) := do
  let pairs ← readSchemas domain.schemas
  let initial ← Initial.read (κ := κ) problem.init ∅
  let goal ← goalNamed (← readCondition problem.goal)
  let setting := Setting.of domain problem (pairs.map (·.2)) initial
  return { init := initial.facts, goal
           instances := setting.tagged domain.types (objectsOf domain problem) pairs }

theorem mapM_map_of {ε α β γ δ : Type} {f : α → Except ε β} {g : γ → Except ε δ} {u : α → γ}
    {v : β → δ} {xs : List α} (h : ∀ x ∈ xs, g (u x) = v <$> f x) :
    (xs.map u).mapM g = List.map v <$> xs.mapM f := by
  induction xs with
  | nil => rfl
  | cons x xs ih =>
    obtain ⟨hx, hxs⟩ := List.forall_mem_cons.1 h
    rw [List.map_cons, List.mapM_cons, List.mapM_cons, hx, ih hxs]
    rcases f x with e | y
    · rfl
    · rcases xs.mapM f with e | ys
      · rfl
      · rfl

theorem mapM_read (schemas : List Schema) :
    schemas.mapM (LiftedAction.read (κ := κ)) = List.map (·.2) <$> readSchemas schemas := by
  have h : (schemas.map id).mapM (LiftedAction.read (κ := κ)) = List.map (·.2) <$> readSchemas schemas :=
    mapM_map_of fun s _ => by
      rw [id, Functor.map_map]
      exact (id_map _).symm
  rwa [List.map_id] at h

theorem readSchemas_eq_ok {schemas : List Schema} {pairs : List (Schema × LiftedAction κ)}
    (h : readSchemas schemas = .ok pairs) {p : Schema × LiftedAction κ} (hp : p ∈ pairs) :
    p.1 ∈ schemas ∧ LiftedAction.read p.1 = .ok p.2 := by
  have hall := mapM_eq_ok.1 h
  clear h
  induction hall with
  | nil => cases hp
  | cons hs _ ih =>
    rcases List.mem_cons.1 hp with rfl | hp
    · obtain ⟨a, ha, rfl⟩ := map_eq_ok.1 hs
      exact ⟨List.mem_cons_self, ha⟩
    · exact ⟨List.mem_cons_of_mem _ (ih hp).1, (ih hp).2⟩

theorem LiftedAction.name_of_read {s : Schema} {a : LiftedAction κ} (h : LiftedAction.read s = .ok a) :
    a.name = s.name := by
  rw [read_eq] at h
  obtain ⟨condition, -, h⟩ := bind_eq_ok.1 h
  obtain ⟨effect, -, h⟩ := bind_eq_ok.1 h
  rw [← Except.ok.inj h]

theorem tagged_of_instancesAll {setting : Setting κ} {types objects : List TypedName}
    {pairs : List (Schema × LiftedAction κ)} {ns : List (NamedAction κ)}
    (h : setting.instancesAll types objects (pairs.map (·.2)) = .ok ns) :
    (setting.tagged types objects pairs).map (·.2) = ns := by
  induction pairs generalizing ns with
  | nil => exact Except.ok.inj h
  | cons p pairs ih =>
    obtain ⟨xs, hxs, h⟩ := bind_eq_ok.1 h
    obtain ⟨ys, hys, h⟩ := bind_eq_ok.1 h
    rw [← Except.ok.inj h, ← ih hys, Setting.tagged, List.flatMap_cons, List.map_append, List.map_map,
      Setting.found, hxs]
    exact congrArg (· ++ _) (List.map_id xs)

/-- A ground task over names is one with schemas, less the schemas. -/
theorem TaggedTask.of_named {domain : Domain} {problem : Problem} {n : NamedTask κ}
    (h : NamedTask.of domain problem = .ok n) :
    ∃ b, TaggedTask.of domain problem = .ok b ∧ n = b.toNamed := by
  unfold NamedTask.of at h
  rw [mapM_read] at h
  obtain ⟨_, hp, h⟩ := bind_eq_ok.1 h
  obtain ⟨pairs, hpairs, rfl⟩ := map_eq_ok.1 hp
  obtain ⟨initial, hinitial, h⟩ := bind_eq_ok.1 h
  obtain ⟨all, hall, h⟩ := bind_eq_ok.1 h
  obtain ⟨found, hfound, h⟩ := bind_eq_ok.1 h
  obtain ⟨literals, hliterals, h⟩ := bind_eq_ok.1 h
  obtain ⟨goal, hgoal, h⟩ := bind_eq_ok.1 h
  refine ⟨_, bind_eq_ok.2 ⟨pairs, hpairs, bind_eq_ok.2 ⟨initial, hinitial, bind_eq_ok.2
    ⟨literals, hliterals, bind_eq_ok.2 ⟨goal, hgoal, rfl⟩⟩⟩⟩, ?_⟩
  obtain ⟨-, rfl⟩ := limited_eq_ok_iff.1 hfound
  rw [← Except.ok.inj h, ← tagged_of_instancesAll hall]
  rfl

end Of

/-! ## Facts of other predicates -/

/-- The names that are atoms of excluded predicates only. -/
def excludedFacts (F : String → Prop) : Set String := {n | ∀ p args, atomName p args = n → F p}

theorem atomName_not_mem {F : String → Prop} {p : String} (hp : ¬ F p) (args : List String) :
    atomName p args ∉ excludedFacts F := fun h => hp (h p args rfl)

section Avoids

variable {F : String → Prop}

theorem Literal.Avoids.named {l : Literal} (hl : l.Avoids F) {binding : Binding} {x : Signed String}
    (h : l.named binding = .ok x) : x.2 ∉ excludedFacts F := by
  cases l with
  | equality => cases h
  | atom positive predicate args =>
    obtain ⟨args, -, h⟩ := bind_eq_ok.1 h
    cases h
    exact atomName_not_mem (hl predicate rfl) args

theorem avoids_mapM_named {ls : List Literal} (hl : ∀ l ∈ ls, l.Avoids F) {binding : Binding}
    {xs : List (Signed String)} (h : ls.mapM (Literal.named binding) = .ok xs) :
    ∀ x ∈ xs, x.2 ∉ excludedFacts F := by
  have hall := mapM_eq_ok.1 h
  clear h
  induction hall with
  | nil => simp
  | cons hx _ ih =>
    obtain ⟨hl, hls⟩ := List.forall_mem_cons.1 hl
    exact List.forall_mem_cons.2 ⟨hl.named hx, ih hls⟩

variable {κ : Type} {setting : Setting κ}

theorem avoids_conditionNamed {ls : List Literal} (hl : ∀ l ∈ ls, l.Avoids F) {binding : Binding}
    {xs : List (Signed String)} (h : setting.conditionNamed binding ls = .ok (some xs)) :
    ∀ x ∈ xs, x.2 ∉ excludedFacts F := by
  induction ls generalizing xs with
  | nil =>
    cases h
    simp
  | cons l ls ih =>
    obtain ⟨hl, hls⟩ := List.forall_mem_cons.1 hl
    obtain ⟨verdict, -, h⟩ := bind_eq_ok.1 h
    rcases verdict with _ | _ | _
    · obtain ⟨x, hx, h⟩ := bind_eq_ok.1 h
      obtain ⟨ys, hys, h⟩ := bind_eq_ok.1 h
      obtain ⟨ys, rfl, rfl⟩ := Option.map_eq_some_iff.1 (Except.ok.inj h)
      exact List.forall_mem_cons.2 ⟨hl.named hx, ih hls hys⟩
    · cases h
    · exact ih hls h

theorem avoids_conditionalNamed {cs : List (List Literal × List Literal)}
    (hc : ∀ c ∈ cs, ∀ l ∈ c.1 ++ c.2, l.Avoids F) {binding : Binding}
    {es : List (List (Signed String) × List (Signed String))}
    (h : setting.conditionalNamed binding cs = .ok es) :
    ∀ e ∈ es, (∀ x ∈ e.1, x.2 ∉ excludedFacts F) ∧ ∀ x ∈ e.2, x.2 ∉ excludedFacts F := by
  induction cs generalizing es with
  | nil =>
    cases h
    simp
  | cons c cs ih =>
    obtain ⟨hc, hcs⟩ := List.forall_mem_cons.1 hc
    obtain ⟨hneeds, hdoes⟩ := List.forall_mem_append.1 hc
    obtain ⟨condition, hcond, h⟩ := bind_eq_ok.1 h
    cases condition with
    | none => exact ih hcs h
    | some xs =>
      obtain ⟨ys, hys, h⟩ := bind_eq_ok.1 h
      obtain ⟨rest, hrest, h⟩ := bind_eq_ok.1 h
      rw [← Except.ok.inj h]
      exact List.forall_mem_cons.2
        ⟨⟨avoids_conditionNamed hneeds hcond, avoids_mapM_named hdoes hys⟩, ih hcs hrest⟩

variable [Scale κ] {a : LiftedAction κ}

theorem avoids_named (ha : a.Avoids F) {args : List String} {n : NamedAction κ}
    (h : setting.named a args = .ok (some n)) :
    n.name = atomName a.name args ∧ n.rule.Avoids (excludedFacts F) := by
  obtain ⟨condition, hcond, h⟩ := bind_eq_ok.1 h
  cases condition with
  | none => cases h
  | some xs =>
    obtain ⟨effect, heffect, h⟩ := bind_eq_ok.1 h
    obtain ⟨conditional, hconditional, h⟩ := bind_eq_ok.1 h
    obtain ⟨cost, -, h⟩ := bind_eq_ok.1 h
    cases h
    refine ⟨rfl, avoids_conditionNamed ha.condition hcond,
      avoids_mapM_named (fun l hl => ha.effect l (List.mem_append_left _ hl)) heffect,
      avoids_conditionalNamed (fun c hc l hl => ha.effect l (List.mem_append_right _ ?_)) hconditional⟩
    exact List.mem_flatMap.2 ⟨c, hc, hl⟩

theorem avoids_namedAll (ha : a.Avoids F) {found : List (List String)} {ns : List (NamedAction κ)}
    (h : setting.namedAll a found = .ok ns) :
    ∀ n ∈ ns, (∃ args, n.name = atomName a.name args) ∧ n.rule.Avoids (excludedFacts F) := by
  induction found generalizing ns with
  | nil =>
    cases h
    simp
  | cons args rest ih =>
    obtain ⟨action, haction, h⟩ := bind_eq_ok.1 h
    cases action with
    | none => exact ih h
    | some n =>
      obtain ⟨ms, hms, h⟩ := bind_eq_ok.1 h
      rw [← Except.ok.inj h]
      obtain ⟨hname, hrule⟩ := avoids_named ha haction
      exact List.forall_mem_cons.2 ⟨⟨⟨args, hname⟩, hrule⟩, ih hms⟩

theorem avoids_found (ha : a.Avoids F) {types objects : List TypedName} {n : NamedAction κ}
    (hn : n ∈ setting.found types objects a) :
    (∃ args, n.name = atomName a.name args) ∧ n.rule.Avoids (excludedFacts F) := by
  unfold Setting.found at hn
  split at hn
  · rename_i ns h
    obtain ⟨found, -, h⟩ := bind_eq_ok.1 h
    exact avoids_namedAll ha h n hn
  · cases hn

omit [Scale κ] in
theorem avoids_goalNamed (heq : ¬ F "=") {ls : List Literal} (hl : ∀ l ∈ ls, l.Avoids F)
    {xs : List (Signed String)} (h : goalNamed ls = .ok xs) : ∀ x ∈ xs, x.2 ∉ excludedFacts F := by
  induction ls generalizing xs with
  | nil =>
    cases h
    simp
  | cons l ls ih =>
    obtain ⟨hl, hls⟩ := List.forall_mem_cons.1 hl
    cases l with
    | atom positive predicate args =>
      obtain ⟨x, hx, h⟩ := bind_eq_ok.1 h
      obtain ⟨ys, hys, h⟩ := bind_eq_ok.1 h
      rw [← Except.ok.inj h]
      exact List.forall_mem_cons.2 ⟨hl.named hx, ih hls hys⟩
    | equality positive a b =>
      unfold goalNamed at h
      split at h
      · exact ih hls h
      · obtain ⟨ys, hys, rfl⟩ := map_eq_ok.1 h
        exact List.forall_mem_cons.2 ⟨atomName_not_mem heq [a, b], ih hls hys⟩

theorem avoids_initial {xs : List Expr} (hx : ∀ p ∈ xs.filterMap Expr.head?, ¬ F p)
    {values : Std.HashMap String κ} {initial : Initial κ} (h : Initial.read xs values = .ok initial) :
    ∀ n ∈ initial.facts, n ∉ excludedFacts F := by
  intro n hn
  rw [facts_of_read h] at hn
  obtain ⟨x, hmem, hn⟩ := List.mem_filterMap.1 hn
  obtain ⟨predicate, items, rfl, -, rfl⟩ := initialFact?_eq_some.1 hn
  exact atomName_not_mem (hx predicate (List.mem_filterMap.2 ⟨_, hmem, rfl⟩)) _

/-- The task says nothing about excluded predicates, and its actions are called by their schemas. -/
structure TaggedTask.Avoids (b : TaggedTask κ) (schemas : List Schema) (F : String → Prop) : Prop where
  init : ∀ n ∈ b.init, n ∉ excludedFacts F
  goal : ∀ x ∈ b.goal, x.2 ∉ excludedFacts F
  rule : ∀ p ∈ b.instances, p.2.rule.Avoids (excludedFacts F)
  schema : ∀ p ∈ b.instances, p.1 ∈ schemas
  name : ∀ p ∈ b.instances, ∃ args, p.2.name = atomName p.1.name args

theorem TaggedTask.avoids_of {domain : Domain} {problem : Problem} {b : TaggedTask κ}
    (heq : ¬ F "=") (hF : ∀ p ∈ usedPredicates domain problem, ¬ F p)
    (h : TaggedTask.of domain problem = .ok b) : b.Avoids domain.schemas F := by
  obtain ⟨pairs, hpairs, h⟩ := bind_eq_ok.1 h
  obtain ⟨initial, hinitial, h⟩ := bind_eq_ok.1 h
  obtain ⟨literals, hliterals, h⟩ := bind_eq_ok.1 h
  obtain ⟨goal, hgoal, h⟩ := bind_eq_ok.1 h
  obtain rfl := Except.ok.inj h
  simp only [usedPredicates, List.forall_mem_append] at hF
  obtain ⟨⟨hschemas, hinit⟩, hused⟩ := hF
  have hinstance {p : Schema × NamedAction κ} {setting : Setting κ} {types objects : List TypedName}
      (hp : p ∈ setting.tagged types objects pairs) :
      p.1 ∈ domain.schemas ∧ (∃ args, p.2.name = atomName p.1.name args) ∧
        p.2.rule.Avoids (excludedFacts F) := by
    obtain ⟨⟨s, a⟩, hpair, hp⟩ := List.mem_flatMap.1 hp
    obtain ⟨n, hn, rfl⟩ := List.mem_map.1 hp
    obtain ⟨hs, hread⟩ := readSchemas_eq_ok hpairs hpair
    have ha : a.Avoids F := LiftedAction.avoids_of_read
      (fun p hp => hschemas p (List.mem_flatMap.2 ⟨s, hs, hp⟩)) hread
    obtain ⟨hname, hrule⟩ := avoids_found ha hn
    exact ⟨hs, LiftedAction.name_of_read hread ▸ hname, hrule⟩
  exact
    { init := avoids_initial hinit hinitial
      goal := avoids_goalNamed heq (fun l hl p hp =>
        hused p (mem_predicates_of_readCondition _ hliterals hl hp)) hgoal
      rule := fun p hp => (hinstance hp).2.2
      schema := fun p hp => (hinstance hp).1
      name := fun p hp => (hinstance hp).2.1 }

end Avoids

end Waymark.Ground
