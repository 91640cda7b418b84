import Waymark.Proofs.Encoding.Compiled
import Waymark.Proofs.Encoding.Joint

/-!
# Plans of a task with monitors

A state of a task with monitors is a state of the task beside a set of cells, and its actions act on
both. If the monitors follow an automaton, a run of the task with monitors is a run of the task in which
the automaton takes the steps that the schemas of the actions say. A run that the automaton rejects may
go on, but never ends in a goal.

* `Layered`: a task and monitors that say nothing about each other's facts;
* `joined`: a state with cells, with `allows_augment` and `next_augment` for the actions;
* `not_goal_of_doomed`: no run leads from doomed cells to the goal;
* `isPlan_monitored_iff`: the plans of a task with monitors.
-/

namespace Waymark.Encoding

open Ground Planning Number

variable {ι Q κ : Type}

/-- The state with the fluents of cells. -/
def joined (name : ι → String) (S : Set String) (M : Set ι) : Set String := S ∪ fluentFact name '' M

/-- The task says nothing about the fluents, whose names tell cells apart, and what is known of them is
right. -/
structure Layered (w : Watcher ι Schema) (name : ι → String) (k : Nat) (know : ι → Option Bool)
    (schemas : List Schema) (b : TaggedTask κ) : Prop where
  fluent : ∀ c, Fluent (stem k) (name c)
  injective : Function.Injective name
  avoids : b.Avoids schemas (Fluent (stem k))
  knows : w.Knows know b

namespace Layered

variable {w : Watcher ι Schema} {name : ι → String} {k : Nat} {know : ι → Option Bool}
  {schemas : List Schema} {b : TaggedTask κ} (h : Layered w name k know schemas b)
include h

theorem range_subset : Set.range (fluentFact name) ⊆ excludedFacts (Fluent (stem k)) := by
  rintro _ ⟨c, rfl⟩
  exact fluentFact_mem_excludedFacts (h.fluent c)

theorem avoids_rule {p : Schema × NamedAction κ} (hp : p ∈ b.instances) :
    p.2.rule.Avoids (Set.range (fluentFact name)) := (h.avoids.rule p hp).mono h.range_subset

theorem not_mem_initial (c : ι) : fluentFact name c ∉ b.toNamed.initial := fun hc =>
  h.avoids.init _ hc (h.range_subset ⟨c, rfl⟩)

omit h in
theorem initial_eq : (monitoredTask w name know b).initial =
    joined name b.toNamed.initial {c | c ∈ w.start} := by
  ext a
  simp only [NamedTask.initial, monitoredTask, joined, TaggedTask.toNamed, Set.mem_ofPred_eq,
    List.mem_append, List.mem_map, Set.mem_union, Set.mem_image]

section Step

variable {S : Set String} {M : Set ι} (hS : ∀ c, fluentFact name c ∉ S)
include hS

/-- The goal holds if the goals of the task and of the watcher do. -/
theorem goal_iff :
    AllHold (joined name S M) (monitoredTask w name know b).goal ↔
      AllHold S b.goal ∧ AllHold M w.goal := by
  have hgoal : ∀ x ∈ b.goal, x.2 ∉ Set.range (fluentFact name) := fun x hx hmem =>
    h.avoids.goal x hx (h.range_subset hmem)
  rw [joined, monitoredTask, Rule.allHold_append]
  exact and_congr (Rule.allHold_union_of_avoids hgoal)
    (Rule.allHold_union_map (fluentFact_injective h.injective) hS)

variable {p : Schema × NamedAction κ} (hp : p ∈ b.instances) (hM : Rule.Agrees know M)
  {r : Rule ι} (hr : (w.rule p.1).resolve know = some r)
include hp

theorem not_mem_next (c : ι) : fluentFact name c ∉ p.2.rule.next S :=
  (h.avoids_rule hp).not_mem_next hS c

include hM

omit hS in
theorem agrees_next : Rule.Agrees know ((w.rule p.1).next M) := hM.next (h.knows.unchanged p hp)

include hr

/-- The action with a monitor applies if it does in the task and the watcher lets it. -/
theorem allows_augment :
    (augment name r p.2).rule.Allows (joined name S M) ↔
      p.2.rule.Allows S ∧ (w.rule p.1).Allows M := by
  rw [← Rule.allows_of_resolve hM hr]
  exact Rule.allows_append_map (fluentFact_injective h.injective) hS (h.avoids_rule hp)

/-- The action with a monitor acts on the state and on the cells. -/
theorem next_augment :
    (augment name r p.2).rule.next (joined name S M) =
      joined name (p.2.rule.next S) ((w.rule p.1).next M) := by
  rw [← Rule.next_of_resolve hM hr]
  exact Rule.next_append_map (fluentFact_injective h.injective) hS (h.avoids_rule hp)

end Step

/-- The steps of a task with monitors are those of the task that the watcher lets happen. -/
theorem takes_iff {S T : Set String} {M : Set ι} {action : String} {price : κ}
    (hS : ∀ c, fluentFact name c ∉ S) (hM : Rule.Agrees know M) :
    (monitoredTask w name know b).Takes (joined name S M) action price T ↔
      ∃ p ∈ b.instances, p.2.name = action ∧ p.2.cost = price ∧ p.2.rule.Allows S ∧
        (w.rule p.1).Allows M ∧ joined name (p.2.rule.next S) ((w.rule p.1).next M) = T := by
  constructor
  · rintro ⟨a, ha, hname, hcost, hallows, rfl⟩
    obtain ⟨p, hp, ha⟩ := List.mem_filterMap.1 ha
    obtain ⟨r, hr, rfl⟩ := Option.map_eq_some_iff.1 ha
    obtain ⟨hbase, hwatch⟩ := (h.allows_augment hS hp hM hr).1 hallows
    exact ⟨p, hp, hname, hcost, hbase, hwatch, (h.next_augment hS hp hM hr).symm⟩
  · rintro ⟨p, hp, hname, hcost, hbase, hwatch, rfl⟩
    cases hr : (w.rule p.1).resolve know with
    | none => exact (Rule.not_allows_of_resolve hM hr hwatch).elim
    | some r =>
      refine ⟨augment name r p.2, List.mem_filterMap.2 ⟨p, hp, by rw [hr]; rfl⟩, hname, hcost,
        (h.allows_augment hS hp hM hr).2 ⟨hbase, hwatch⟩, h.next_augment hS hp hM hr⟩

/-! ## Runs -/

variable [Scale κ] {m : Machine Q Schema} {cells : Q → Set ι} {doomed : Set ι → Prop}
  (hf : Faithful w m cells doomed)
include hf

/-- No run leads from doomed cells to the goal. -/
theorem not_goal_of_doomed {S T : Set String} {M : Set ι} {names : List String} {cost cost' : κ}
    (hS : ∀ c, fluentFact name c ∉ S) (hM : Rule.Agrees know M) (hdoomed : doomed M)
    (hrun : Steps (monitoredTask w name know b).Takes (joined name S M) cost names T cost') :
    ¬ AllHold T (monitoredTask w name know b).goal := by
  induction names generalizing S M cost with
  | nil =>
    obtain ⟨rfl, rfl⟩ := steps_nil.1 hrun
    rw [h.goal_iff hS]
    exact fun hgoal => hf.not_goal hdoomed hgoal.2
  | cons action names ih =>
    obtain ⟨price, T', htakes, hrest⟩ := steps_cons.1 hrun
    obtain ⟨p, hp, -, -, -, -, rfl⟩ := (h.takes_iff hS hM).1 htakes
    exact ih (h.not_mem_next hS hp) (h.agrees_next hp hM) (hf.doomed_next _ hdoomed) hrest

variable {schemaOf : String → Option Schema}
  (hschema : ∀ p ∈ b.instances, schemaOf p.2.name = some p.1)
include hschema

/-- From the cells of a state of the automaton, the runs that lead to the goal are those of the task
that the automaton accepts. -/
theorem exists_steps_iff {S : Set String} {q : Q} {names : List String} {cost cost' : κ}
    (hS : ∀ c, fluentFact name c ∉ S) (hq : m.valid q) (hM : Rule.Agrees know (cells q)) :
    (∃ T, Steps (monitoredTask w name know b).Takes (joined name S (cells q)) cost names T cost' ∧
        AllHold T (monitoredTask w name know b).goal) ↔
      (∃ S', Steps b.toNamed.Takes S cost names S' cost' ∧ AllHold S' b.goal) ∧
        m.Accepts q (names.filterMap schemaOf) := by
  induction names generalizing S q cost with
  | nil =>
    rw [List.filterMap_nil, Machine.accepts_nil]
    constructor
    · rintro ⟨T, hrun, hgoal⟩
      obtain ⟨rfl, rfl⟩ := steps_nil.1 hrun
      obtain ⟨hbase, hwatch⟩ := (h.goal_iff hS).1 hgoal
      exact ⟨⟨S, .refl .., hbase⟩, (hf.goal_iff hq).1 hwatch⟩
    · rintro ⟨⟨S', hrun, hgoal⟩, haccepting⟩
      obtain ⟨rfl, rfl⟩ := steps_nil.1 hrun
      exact ⟨_, .refl .., (h.goal_iff hS).2 ⟨hgoal, (hf.goal_iff hq).2 haccepting⟩⟩
  | cons action names ih =>
    constructor
    · rintro ⟨T, hrun, hgoal⟩
      obtain ⟨price, T', htakes, hrest⟩ := steps_cons.1 hrun
      obtain ⟨p, hp, rfl, rfl, hallows, hwatch, rfl⟩ := (h.takes_iff hS hM).1 htakes
      have hM' := h.agrees_next hp hM
      have hS' := h.not_mem_next hS hp
      cases hstep : m.step q p.1 with
      | none =>
        have hdoomed := hf.step_none hq hstep hwatch
        exact (h.not_goal_of_doomed hf hS' hM' hdoomed hrest hgoal).elim
      | some q' =>
        rw [(hf.step_some hq hstep).2] at hM' hrest
        obtain ⟨⟨S', hrun', hgoal'⟩, haccepts⟩ :=
          (ih hS' (m.valid_step hq hstep) hM').1 ⟨T, hrest, hgoal⟩
        refine ⟨⟨S', .head ⟨p.2, List.mem_map_of_mem hp, rfl, rfl, hallows, rfl⟩ hrun', hgoal'⟩, ?_⟩
        rw [List.filterMap_cons, hschema p hp]
        exact Machine.accepts_cons.2 ⟨q', hstep, haccepts⟩
    · rintro ⟨⟨S', hrun, hgoal⟩, haccepts⟩
      obtain ⟨price, S₁, ⟨a, ha, rfl, rfl, hallows, rfl⟩, hrest⟩ := steps_cons.1 hrun
      obtain ⟨p, hp, rfl⟩ := List.mem_map.1 ha
      rw [List.filterMap_cons, hschema p hp] at haccepts
      obtain ⟨q', hstep, haccepts⟩ := Machine.accepts_cons.1 haccepts
      obtain ⟨hwatch, hnext⟩ := hf.step_some hq hstep
      have hM' := h.agrees_next hp hM
      have hS' := h.not_mem_next hS hp
      rw [hnext] at hM'
      obtain ⟨T, hrun', hgoal'⟩ :=
        (ih hS' (m.valid_step hq hstep) hM').2 ⟨⟨S', hrest, hgoal⟩, haccepts⟩
      refine ⟨T, .head ((h.takes_iff hS hM).2 ⟨p, hp, rfl, rfl, hallows, hwatch, ?_⟩) hrun', hgoal'⟩
      rw [hnext]

/-- **The plans of a task with monitors** are the plans of the task that the automaton accepts. -/
theorem isPlan_monitored_iff {names : List String} {cost : κ} :
    (monitoredTask w name know b).IsPlan names cost ↔
      b.toNamed.IsPlan names cost ∧ m.Accepts m.start (names.filterMap schemaOf) := by
  have hM := h.knows.agrees
  rw [hf.start] at hM
  rw [NamedTask.IsPlan, initial_eq, hf.start]
  exact h.exists_steps_iff hf hschema h.not_mem_initial m.valid_start hM

end Layered

end Waymark.Encoding
