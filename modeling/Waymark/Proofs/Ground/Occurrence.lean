import Mathlib.Tactic
import Waymark.Proofs.Ground.Numbering

/-!
# Facts are numbered as they occur

Grounding numbers the facts of the initial state, the actions and the goal in the order in which they occur,
unless a static literal rules something out. The numbers are then those that the names of the task alone
determine.

* `placeOf`, `splitPlaces`, `actionPlaces`, `NamedTask.places`: names numbered as they occur;
* `Follows`: a numbering computation gives the numbers of these, with `Follows.bind`;
* `Setting.Dynamic`: a schema whose conditions mention no static literal;
* `exists_groundFully_of_dynamic`: the ground task of a domain with such schemas.
-/

namespace Waymark.Ground

open Planning Number

variable {α β γ : Type}

/-! ## Names with numbers -/

/-- Names by number. -/
abbrev Naming := StateM (Array String)

/-- What only gives a value leaves the names. -/
theorem Naming.pure_eq (x : α) : (pure x : Naming α) = fun names => (x, names) := rfl

theorem Naming.bind_eq (c : Naming α) (d : α → Naming β) : (c >>= d) = fun names =>
    match c names with
    | (x, names) => d x names := rfl

/-- The number of a name, which is put at the end if it is new. -/
def placeOf (name : String) : Naming Nat := fun names =>
  match names.findIdx? (· = name) with
  | some i => (i, names)
  | none => (names.size, names.push name)

/-- The numbers of signed facts: those of positive and those of negated ones. -/
def splitPlaces : List (Signed String) → Naming (List Nat × List Nat)
  | [] => return ([], [])
  | x :: xs => do
    let i ← placeOf x.2
    let (positives, negatives) ← splitPlaces xs
    return if x.1 then (i :: positives, negatives) else (positives, i :: negatives)

/-- A conditional effect with numbers for names. -/
def effectPlaces (c : List (Signed String) × List (Signed String)) : Naming ConditionalEffect := do
  let (needs, forbids) ← splitPlaces c.1
  let (adds, deletes) ← splitPlaces c.2
  return ⟨needs, forbids, adds, deletes⟩

variable {κ : Type}

/-- An action with numbers for names. -/
def actionPlaces (n : NamedAction κ) : Naming (Action κ) := do
  let (needs, forbids) ← splitPlaces n.rule.condition
  let (adds, deletes) ← splitPlaces n.rule.effect
  let conditional ← n.rule.conditional.mapM effectPlaces
  return { name := n.name, needs, forbids, adds, deletes, conditional, cost := n.cost }

/-- A task with numbers for names, given the table of the facts. -/
def NamedTask.places (n : NamedTask κ) : Naming (FactTable → Task κ) := do
  let init ← n.init.mapM placeOf
  let actions ← n.actions.mapM actionPlaces
  let (goalNeeds, goalForbids) ← splitPlaces n.goal
  return fun facts => { facts, init, actions := actions.toArray, goalNeeds, goalForbids }

/-- The table of the facts has no influence on the rest of the task. -/
theorem NamedTask.places_eq (n : NamedTask κ) (names : Array String) (facts : FactTable) :
    (n.places names).1 facts = { (n.places names).1 .empty with facts } := rfl

/-! ## Computations -/

/-- On every table, the first computation has the value that the second has on its names, and leaves the
names that the second leaves. -/
def Follows (c : Numbering α) (d : Naming α) : Prop :=
  ∀ t : FactTable, ∃ t' : FactTable, t'.names = (d t.names).2 ∧ c t = .ok ((d t.names).1, t')

/-- The number of results does not depend on the names. -/
theorem length_mapM (f : α → Naming β) (xs : List α) (names : Array String) :
    ((xs.mapM f) names).1.length = xs.length := by
  induction xs generalizing names with
  | nil => rfl
  | cons x xs ih =>
    rw [List.mapM_cons]
    exact congrArg Nat.succ (ih _)

theorem lift_ok_bind (a : α) (f : α → Numbering β) :
    ((liftM (Except.ok a : Except Failure α) : Numbering α) >>= f) = f a := rfl

namespace Follows

variable {c : Numbering α} {d : Naming α}

theorem pure (a : α) : Follows (Pure.pure a) (Pure.pure a) := fun t => ⟨t, rfl, rfl⟩

/-- The second computation may compute something simpler from which the value of the first one follows. What
comes next is then compared for the values that are really obtained. -/
theorem bind_map {r : γ → α} {d : Naming γ} {f : α → Numbering β} {g : γ → Naming β} (h : Follows c (r <$> d))
    (hf : ∀ names, Follows (f (r (d names).1)) (g (d names).1)) : Follows (c >>= f) (d >>= g) := by
  intro t
  obtain ⟨t₁, hnames, hc⟩ := h t
  obtain ⟨t₂, hnames₂, hfa⟩ := hf t.names t₁
  rw [show t₁.names = (d t.names).2 from hnames] at hnames₂ hfa
  refine ⟨t₂, hnames₂, ?_⟩
  show (c t >>= fun p => f p.1 p.2) = _
  rw [hc]
  exact hfa

theorem bind {f : α → Numbering β} {g : α → Naming β} (h : Follows c d) (hf : ∀ a, Follows (f a) (g a)) :
    Follows (c >>= f) (d >>= g) :=
  bind_map (r := id) (by rwa [id_map]) fun _ => hf _

theorem mapM {f : α → Numbering β} {g : α → Naming β} (h : ∀ x, Follows (f x) (g x)) (xs : List α) :
    Follows (xs.mapM f) (xs.mapM g) := by
  induction xs with
  | nil => exact .pure []
  | cons x xs ih =>
    rw [List.mapM_cons, List.mapM_cons]
    exact (h x).bind fun y => ih.bind fun ys => .pure (y :: ys)

/-- A computation without numbers that succeeds is passed over. -/
theorem lift_bind {m : Except Failure α} {a : α} {f : α → Numbering β} {g : Naming β} (hm : m = .ok a)
    (h : Follows (f a) g) : Follows ((liftM m : Numbering α) >>= f) g := by
  subst hm
  exact h

end Follows

/-! ## Literals -/

/-- A name that a table holds keeps its number. -/
theorem internFact_of_names {t : FactTable} {i : Nat} {n : String} (h : t.Names i n) :
    internFact n t = .ok (i, t) := by
  have hnumber := (t.numbers_eq_some_iff n i).2 h
  unfold internFact FactTable.intern
  split
  · rename_i j hj
    rw [Option.some.inj (hnumber.symm.trans hj)]
  · rename_i hnone
    cases hnumber.symm.trans hnone

/-- A name that a table does not hold is put at its end. -/
theorem exists_internFact {t : FactTable} {n : String} (h : n ∉ t.names) :
    ∃ t' : FactTable, t'.names = t.names.push n ∧ internFact n t = .ok (t.names.size, t') := by
  unfold internFact FactTable.intern
  split
  · rename_i i hi
    exact absurd (Array.mem_of_getElem? ((t.numbers_eq_some_iff n i).1 hi)) h
  · exact ⟨_, rfl, rfl⟩

theorem follows_internFact (n : String) : Follows (internFact n) (placeOf n) := by
  intro t
  unfold placeOf
  cases hplace : t.names.findIdx? (· = n) with
  | some i =>
    obtain ⟨hi, heq, -⟩ := Array.findIdx?_eq_some_iff_getElem.1 hplace
    have hnames : t.Names i n := Array.getElem?_eq_some_iff.2 ⟨hi, of_decide_eq_true heq⟩
    exact ⟨t, rfl, internFact_of_names hnames⟩
  | none =>
    refine exists_internFact fun hn => ?_
    simpa using Array.findIdx?_eq_none_iff.1 hplace n hn

theorem follows_factOf {binding : Binding} {l : Literal} {x : Signed String} (h : l.named binding = .ok x) :
    Follows (Setting.factOf binding l) (do return (x.1, ← placeOf x.2)) := by
  cases l with
  | equality => cases h
  | atom positive predicate args =>
    obtain ⟨args', hargs, h⟩ := bind_eq_ok.1 h
    obtain rfl := Except.ok.inj h
    exact .lift_bind hargs ((follows_internFact _).bind fun i => .pure (positive, i))

/-- One literal more, whose fact is numbered first. -/
theorem Follows.cons {binding : Binding} {l : Literal} {x : Signed String} {c : Numbering (List Nat × List Nat)}
    {d : Naming (List Nat × List Nat)} (hx : l.named binding = .ok x) (h : Follows c d) :
    Follows
      (do
        let (positive, fact) ← Setting.factOf binding l
        let (positives, negatives) ← c
        return if positive then (fact :: positives, negatives) else (positives, fact :: negatives))
      (do
        let i ← placeOf x.2
        let (positives, negatives) ← d
        return if x.1 then (i :: positives, negatives) else (positives, i :: negatives)) := by
  have hstep := (follows_factOf hx).bind (f := fun p => do
      let (positives, negatives) ← c
      return if p.1 then (p.2 :: positives, negatives) else (positives, p.2 :: negatives))
    fun p => h.bind fun q => .pure _
  rw [bind_assoc] at hstep
  exact hstep

theorem follows_factsOf {binding : Binding} {ls : List Literal} {xs : List (Signed String)}
    (h : ls.mapM (Literal.named binding) = .ok xs) : Follows (Setting.factsOf binding ls) (splitPlaces xs) := by
  induction ls generalizing xs with
  | nil =>
    obtain rfl := Except.ok.inj h
    exact .pure _
  | cons l ls ih =>
    rw [List.mapM_cons] at h
    obtain ⟨x, hx, h⟩ := bind_eq_ok.1 h
    obtain ⟨xs, hxs, h⟩ := bind_eq_ok.1 h
    obtain rfl := Except.ok.inj h
    exact .cons hx (ih hxs)

section Setting

variable (setting : Setting κ)

/-- No literal of the conditions of a schema is static. -/
structure Setting.Dynamic (a : LiftedAction κ) : Prop where
  condition : ∀ l ∈ a.condition, setting.isStatic l = false
  conditional : ∀ c ∈ a.effect.conditional, ∀ l ∈ c.1, setting.isStatic l = false

variable {setting} {binding : Binding}

theorem decide_of_not_isStatic {l : Literal} (h : setting.isStatic l = false) :
    setting.decide binding l = .ok none := by
  cases l with
  | equality => cases h
  | atom positive predicate args =>
    have hpredicate : setting.statics.contains predicate = false := h
    rw [Setting.decide, hpredicate]
    rfl

/-- The facts of a condition without static literals are those of its literals. -/
theorem conditionFacts_of_not_isStatic {ls : List Literal} (h : ∀ l ∈ ls, setting.isStatic l = false) :
    setting.conditionFacts binding ls = some <$> Setting.factsOf binding ls := by
  induction ls with
  | nil => rfl
  | cons l ls ih =>
    obtain ⟨hl, hls⟩ := List.forall_mem_cons.1 h
    rw [Setting.conditionFacts, decide_of_not_isStatic hl, Setting.factsOf, ih hls, lift_ok_bind]
    simp only [map_bind, bind_map_left]
    rfl

theorem conditionNamed_of_not_isStatic {ls : List Literal} (h : ∀ l ∈ ls, setting.isStatic l = false) :
    setting.conditionNamed binding ls = some <$> ls.mapM (Literal.named binding) := by
  induction ls with
  | nil => rfl
  | cons l ls ih =>
    obtain ⟨hl, hls⟩ := List.forall_mem_cons.1 h
    rw [Setting.conditionNamed, decide_of_not_isStatic hl, List.mapM_cons, ih hls]
    simp only [map_bind, bind_map_left, map_pure]
    rfl

/-- Conditional effects without static literals are all possible. -/
theorem follows_conditionalEffects {cs : List (List Literal × List Literal)}
    {ys : List (List (Signed String) × List (Signed String))}
    (hdynamic : ∀ c ∈ cs, ∀ l ∈ c.1, setting.isStatic l = false)
    (h : setting.conditionalNamed binding cs = .ok ys) :
    Follows (setting.conditionalEffects binding cs) (ys.mapM effectPlaces) := by
  induction cs generalizing ys with
  | nil =>
    obtain rfl := Except.ok.inj h
    exact .pure _
  | cons c cs ih =>
    obtain ⟨condition, literals⟩ := c
    obtain ⟨hc, hcs⟩ := List.forall_mem_cons.1 hdynamic
    rw [Setting.conditionalNamed, conditionNamed_of_not_isStatic hc, bind_map_left] at h
    obtain ⟨xs, hxs, h⟩ := bind_eq_ok.1 h
    obtain ⟨zs, hzs, h⟩ := bind_eq_ok.1 h
    obtain ⟨rest, hrest, h⟩ := bind_eq_ok.1 h
    obtain rfl := Except.ok.inj h
    rw [Setting.conditionalEffects, conditionFacts_of_not_isStatic hc, bind_map_left, List.mapM_cons]
    unfold effectPlaces
    simp only [bind_assoc, pure_bind]
    refine (follows_factsOf hxs).bind fun p => ?_
    refine (follows_factsOf hzs).bind fun q => ?_
    exact (ih hcs hrest).bind fun es => .pure _

variable [Scale κ]

theorem follows_instantiate {a : LiftedAction κ} {args : List String} {p : Option (NamedAction κ)}
    (hdynamic : setting.Dynamic a) (h : setting.named a args = .ok p) :
    ∃ n, p = some n ∧ Follows (setting.instantiate a args) (some <$> actionPlaces n) := by
  unfold Setting.named at h
  dsimp only at h
  rw [conditionNamed_of_not_isStatic hdynamic.condition, bind_map_left] at h
  obtain ⟨condition, hcondition, h⟩ := bind_eq_ok.1 h
  obtain ⟨effect, heffect, h⟩ := bind_eq_ok.1 h
  obtain ⟨conditional, hconditional, h⟩ := bind_eq_ok.1 h
  obtain ⟨cost, hcost, h⟩ := bind_eq_ok.1 h
  obtain rfl := Except.ok.inj h
  refine ⟨_, rfl, ?_⟩
  unfold Setting.instantiate actionPlaces
  dsimp only
  rw [conditionFacts_of_not_isStatic hdynamic.condition, bind_map_left]
  simp only [map_bind, map_pure]
  refine (follows_factsOf hcondition).bind fun p => ?_
  refine (follows_factsOf heffect).bind fun q => ?_
  refine (follows_conditionalEffects hdynamic.conditional hconditional).bind fun es => ?_
  exact .lift_bind hcost (.pure _)

theorem follows_instantiateAll {a : LiftedAction κ} {found : List (List String)} {ns : List (NamedAction κ)}
    {done : Array (Action κ)} (hdynamic : setting.Dynamic a) (h : setting.namedAll a found = .ok ns)
    (hlimit : done.size + ns.length ≤ maxActions) :
    Follows (setting.instantiateAll a found done)
      ((fun as : List (Action κ) => done ++ as.toArray) <$> ns.mapM actionPlaces) := by
  induction found generalizing ns done with
  | nil =>
    obtain rfl := Except.ok.inj h
    rw [Setting.instantiateAll]
    simpa using Follows.pure done
  | cons args found ih =>
    obtain ⟨p, hp, h⟩ := bind_eq_ok.1 h
    obtain ⟨n, rfl, hfollows⟩ := follows_instantiate hdynamic hp
    obtain ⟨ns, hns, h⟩ := bind_eq_ok.1 h
    obtain rfl := Except.ok.inj h
    rw [List.length_cons] at hlimit
    rw [List.mapM_cons, map_bind]
    refine hfollows.bind_map fun names => ?_
    have hroom : ¬ done.size + 1 > maxActions := by omega
    have hsize : (done.push (actionPlaces n names).1).size + ns.length ≤ maxActions := by
      rw [Array.size_push]
      omega
    have hrest := ih hns hsize
    show Follows (if done.size + 1 > maxActions then _ else _) _
    rw [if_neg hroom]
    simpa using hrest

theorem follows_groundActions {types objects : List TypedName} {actions : List (LiftedAction κ)}
    {ns : List (NamedAction κ)} {done : Array (Action κ)} (hdynamic : ∀ a ∈ actions, setting.Dynamic a)
    (h : setting.instancesAll types objects actions = .ok ns) (hlimit : done.size + ns.length ≤ maxActions) :
    Follows (setting.groundActions types objects actions done)
      ((fun as : List (Action κ) => done ++ as.toArray) <$> ns.mapM actionPlaces) := by
  induction actions generalizing ns done with
  | nil =>
    obtain rfl := Except.ok.inj h
    rw [Setting.groundActions]
    simpa using Follows.pure done
  | cons a actions ih =>
    obtain ⟨ha, hactions⟩ := List.forall_mem_cons.1 hdynamic
    obtain ⟨xs, hxs, h⟩ := bind_eq_ok.1 h
    obtain ⟨ys, hys, h⟩ := bind_eq_ok.1 h
    obtain rfl := Except.ok.inj h
    obtain ⟨found, hfound, hxs⟩ := bind_eq_ok.1 hxs
    rw [List.length_append] at hlimit
    rw [List.mapM_append, map_bind]
    refine .lift_bind hfound ?_
    refine (follows_instantiateAll ha hxs (by omega)).bind_map fun names => ?_
    have hsize : (done ++ ((xs.mapM actionPlaces) names).1.toArray).size + ys.length ≤ maxActions := by
      simp only [Array.size_append, List.size_toArray, length_mapM]
      omega
    have hrest := ih hactions hys hsize
    simpa using hrest

end Setting

/-! ## Tasks -/

theorem follows_goalFacts {ls : List Literal} {xs : List (Signed String)} (h : goalNamed ls = .ok xs) :
    Follows (goalFacts ls) (splitPlaces xs) := by
  induction ls generalizing xs with
  | nil =>
    obtain rfl := Except.ok.inj h
    exact .pure _
  | cons l ls ih =>
    cases l with
    | atom positive predicate args =>
      obtain ⟨x, hx, h⟩ := bind_eq_ok.1 h
      obtain ⟨xs, hxs, h⟩ := bind_eq_ok.1 h
      obtain rfl := Except.ok.inj h
      exact .cons hx (ih hxs)
    | equality positive a b =>
      unfold goalNamed at h
      unfold goalFacts
      split at h
      · rename_i heq
        rw [if_pos heq]
        exact ih h
      · rename_i hne
        rw [if_neg hne]
        obtain ⟨xs, hxs, rfl⟩ := map_eq_ok.1 h
        exact (follows_internFact _).bind fun i => (ih hxs).bind fun q => .pure _

variable [Scale κ] {domain : Domain} {problem : Problem} {actions : List (LiftedAction κ)}
  {initial : Initial κ} {n : NamedTask κ}

/-- Numbers the facts of a task. What the numbers are put together to waits for the table. -/
def numberTask (domain : Domain) (problem : Problem) (actions : List (LiftedAction κ)) (initial : Initial κ) :
    Numbering (FactTable → Task κ) := do
  let init ← initial.facts.mapM internFact
  let actions ← (Setting.of domain problem actions initial).groundActions domain.types
    (objectsOf domain problem) actions #[]
  let (goalNeeds, goalForbids) ← goalFacts (← readCondition problem.goal)
  return fun facts => { facts, init, actions, goalNeeds, goalForbids }

theorem groundFully_eq (hactions : domain.schemas.mapM LiftedAction.read = .ok actions)
    (hinitial : Initial.read problem.init ∅ = .ok initial) :
    Task.groundFully domain problem =
      (fun p => p.1 p.2) <$> (numberTask domain problem actions initial).run FactTable.empty := by
  unfold Task.groundFully
  rw [hactions, hinitial]
  have hget (c : Numbering (FactTable → Task κ)) :
      (fun p => p.1) <$> (c >>= fun mk => do return mk (← get)).run FactTable.empty =
        (fun p => p.1 p.2) <$> c.run FactTable.empty := by
    show _ <$> (c FactTable.empty >>= _) = _ <$> c FactTable.empty
    cases c FactTable.empty with
    | error e => rfl
    | ok p => rfl
  rw [← hget]
  unfold numberTask
  simp only [bind_assoc, pure_bind]
  rfl

theorem follows_numberTask (hactions : domain.schemas.mapM LiftedAction.read = .ok actions)
    (hinitial : Initial.read problem.init ∅ = .ok initial)
    (hdynamic : ∀ a ∈ actions, (Setting.of domain problem actions initial).Dynamic a)
    (hnamed : NamedTask.of domain problem = .ok n) : Follows (numberTask domain problem actions initial) n.places := by
  obtain ⟨_, hread, hnamed⟩ := bind_eq_ok.1 hnamed
  obtain rfl := Except.ok.inj (hactions.symm.trans hread)
  obtain ⟨_, hread, hnamed⟩ := bind_eq_ok.1 hnamed
  obtain rfl := Except.ok.inj (hinitial.symm.trans hread)
  obtain ⟨all, hall, hnamed⟩ := bind_eq_ok.1 hnamed
  obtain ⟨found, hfound, hnamed⟩ := bind_eq_ok.1 hnamed
  obtain ⟨hlimit, rfl⟩ := limited_eq_ok_iff.1 hfound
  obtain ⟨literals, hliterals, hnamed⟩ := bind_eq_ok.1 hnamed
  obtain ⟨goal, hgoal, hnamed⟩ := bind_eq_ok.1 hnamed
  obtain rfl := Except.ok.inj hnamed
  refine (Follows.mapM follows_internFact initial.facts).bind fun is => ?_
  have hsize : (#[] : Array (Action κ)).size + all.length ≤ maxActions := by simpa using hlimit
  have hground := follows_groundActions hdynamic hall hsize
  simp only [Array.empty_append] at hground
  refine hground.bind_map fun names => .lift_bind hliterals ?_
  exact (follows_goalFacts hgoal).bind fun p => .pure _

/-- **Facts are numbered as they occur.** If the named task exists and no condition of a schema mentions a
static literal, then the task of the domain and the problem, before actions are dropped, exists and is the
named one with the facts numbered in the order in which they occur. -/
theorem exists_groundFully_of_dynamic (hactions : domain.schemas.mapM LiftedAction.read = .ok actions)
    (hinitial : Initial.read problem.init ∅ = .ok initial)
    (hdynamic : ∀ a ∈ actions, (Setting.of domain problem actions initial).Dynamic a)
    (hnamed : NamedTask.of domain problem = .ok n) :
    ∃ facts : FactTable, facts.names = (n.places #[]).2 ∧
      Task.groundFully domain problem = .ok ((n.places #[]).1 facts) := by
  obtain ⟨facts, hnames, hrun⟩ := follows_numberTask hactions hinitial hdynamic hnamed .empty
  refine ⟨facts, hnames, ?_⟩
  rw [groundFully_eq hactions hinitial]
  show _ <$> numberTask domain problem actions initial FactTable.empty = _
  rw [hrun]
  rfl

end Waymark.Ground
