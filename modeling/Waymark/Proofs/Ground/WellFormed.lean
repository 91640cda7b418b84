import Mathlib.Tactic
import Waymark.Proofs.Ground.Faults
import Waymark.Proofs.Ground.Layering

/-!
# Ground tasks are well formed

Facts are numbered while conditions, effects and the goal are read, and actions are dropped afterwards. In the
ground task that results every number is that of a fact, and names and numbers stand for each other.

* `Action.mentions`, `Task.InBounds`: the numbers in an action, and tasks whose numbers are all those of facts;
* `Task.WellFormed`, `wellFormed_of_ground`: well-formed tasks, and that ground tasks are such.
-/

namespace Waymark.Ground

open Planning Number

variable {κ : Type} {t : Task κ} {a : Action κ} {f : Nat}

/-- The facts that an action mentions. -/
def Action.mentions (a : Action κ) : List Nat :=
  (a.needs ++ a.forbids) ++ (a.adds ++ a.deletes) ++
    a.conditional.flatMap fun e => (e.needs ++ e.forbids) ++ (e.adds ++ e.deletes)

namespace Task

/-- All numbers in the task are those of facts. -/
structure InBounds (t : Task κ) : Prop where
  init : ∀ f ∈ t.init, f < t.facts.size
  actions : ∀ a ∈ t.actions, ∀ f ∈ a.mentions, f < t.facts.size
  goal : ∀ f ∈ t.goalNeeds ++ t.goalForbids, f < t.facts.size

/-- A task in bounds whose names and numbers stand for each other, which has no more actions than it may have,
and none that needs a fact without a layer. -/
structure WellFormed (t : Task κ) : Prop where
  nodup : t.facts.names.toList.Nodup
  indexOf?_name : ∀ i < t.facts.size, t.facts.indexOf? (t.facts.name i) = some i
  indexOf?_eq_none : ∀ name, name ∉ t.facts.names → t.facts.indexOf? name = none
  inBounds : t.InBounds
  reached : ∀ a ∈ t.actions, ∀ f ∈ a.needs, t.Reached f
  size_actions : t.actions.size ≤ maxActions

namespace InBounds

variable (ht : t.InBounds)
include ht

theorem needs (ha : a ∈ t.actions) (hf : f ∈ a.needs) : f < t.facts.size :=
  ht.actions a ha f (by simp [Action.mentions, hf])

theorem condition (ha : a ∈ t.actions) {e : ConditionalEffect} (he : e ∈ a.conditional) (hf : f ∈ e.needs) :
    f < t.facts.size := by
  refine ht.actions a ha f (List.mem_append_right _ (List.mem_flatMap.2 ⟨e, he, ?_⟩))
  simp [hf]

theorem mayAdd (ha : a ∈ t.actions) (hf : a.mayAdd f = true) : f < t.facts.size := by
  refine ht.actions a ha f ?_
  rw [Action.mayAdd, Bool.or_eq_true, List.any_eq_true] at hf
  rcases hf with hf | ⟨e, he, hf⟩
  · simp [Action.mentions, List.contains_iff_mem.1 hf]
  · refine List.mem_append_right _ (List.mem_flatMap.2 ⟨e, he, ?_⟩)
    simp [List.contains_iff_mem.1 hf]

theorem goalNeeds (hf : f ∈ t.goalNeeds) : f < t.facts.size := ht.goal f (List.mem_append_left _ hf)

theorem inRange : t.InRange := ⟨ht.init, fun _ ha _ => ht.mayAdd ha⟩

theorem needsInRange : t.NeedsInRange := ⟨fun _ ha _ => ht.needs ha, fun _ => ht.goalNeeds⟩

/-- Dropping actions leaves nothing out of bounds. -/
theorem pruned : t.pruned.InBounds := ⟨ht.init, fun a ha => ht.actions a (mem_actions_pruned.1 ha).1, ht.goal⟩

end InBounds

end Task

/-! ## Numbers that stand for names -/

section Named

variable {table : FactTable}

theorem SplitNames.mentions_lt {ps ns : List Nat} {xs : List (Signed String)} (h : SplitNames table ps ns xs) :
    ∀ f ∈ ps ++ ns, f < table.size := by
  induction h with
  | nil => simp
  | positive hn _ ih =>
    intro f hf
    rcases List.mem_cons.1 hf with rfl | hf
    · exact hn.lt_size
    · exact ih f hf
  | negative hn _ ih =>
    intro f hf
    rcases List.mem_append.1 hf with hf | hf
    · exact ih f (List.mem_append_left _ hf)
    · rcases List.mem_cons.1 hf with rfl | hf
      · exact hn.lt_size
      · exact ih f (List.mem_append_right _ hf)

theorem ActionNames.mentions_lt {m : NamedAction κ} (h : ActionNames table a m) :
    ∀ f ∈ a.mentions, f < table.size := by
  intro f hf
  rcases List.mem_append.1 hf with hf | hf
  · rcases List.mem_append.1 hf with hf | hf
    · exact h.condition.mentions_lt f hf
    · exact h.effect.mentions_lt f hf
  · obtain ⟨e, he, hf⟩ := List.mem_flatMap.1 hf
    obtain ⟨c, -, hcondition, heffect⟩ := exists_rel_of_mem h.conditional.flip he
    rcases List.mem_append.1 hf with hf | hf
    · exact hcondition.mentions_lt f hf
    · exact heffect.mentions_lt f hf

theorem TaskNames.inBounds {n : NamedTask κ} (h : TaskNames t n) : t.InBounds where
  init f hf := by
    obtain ⟨m, -, hm⟩ := exists_rel_of_mem h.init.flip hf
    exact FactTable.Names.lt_size hm
  actions a ha := by
    obtain ⟨m, -, hm⟩ := exists_rel_of_mem h.actions.flip (Array.mem_toList_iff.2 ha)
    exact ActionNames.mentions_lt hm
  goal := h.goal.mentions_lt

end Named

/-! ## Ground tasks -/

section Ground

variable [Scale κ] {domain : Domain} {problem : Problem}

/-- No task over names has more actions than a task may have. -/
theorem NamedTask.length_actions_of {n : NamedTask κ} (h : NamedTask.of domain problem = .ok n) :
    n.actions.length ≤ maxActions := by
  obtain ⟨_, -, h⟩ := bind_eq_ok.1 h
  obtain ⟨_, -, h⟩ := bind_eq_ok.1 h
  obtain ⟨_, -, h⟩ := bind_eq_ok.1 h
  obtain ⟨found, hfound, h⟩ := bind_eq_ok.1 h
  obtain ⟨hlength, rfl⟩ := limited_eq_ok_iff.1 hfound
  obtain ⟨_, -, h⟩ := bind_eq_ok.1 h
  obtain ⟨_, -, h⟩ := bind_eq_ok.1 h
  obtain rfl := Except.ok.inj h
  exact hlength

theorem FactTable.nodup_names (table : FactTable) : table.names.toList.Nodup := by
  rw [List.nodup_iff_injective_getElem]
  intro i j hij
  have hname (i : Fin table.names.toList.length) : table.Names i table.names.toList[i] := by
    rw [FactTable.Names, ← Array.getElem?_toList]
    exact List.getElem?_eq_getElem i.isLt
  have hname' : table.Names i table.names.toList[j] := (congrArg (table.Names i) hij).mp (hname i)
  exact Fin.ext (hname'.unique (hname j))

/-- The task that grounding makes, before actions are dropped, is in bounds. -/
theorem inBounds_of_groundFully (h : Task.groundFully domain problem = .ok t) : t.InBounds := by
  obtain ⟨n, -, hn⟩ := matches_groundFully.exists_right h
  exact TaskNames.inBounds hn

/-- Ground tasks are well formed. -/
theorem wellFormed_of_ground (h : Task.ground domain problem = .ok t) : t.WellFormed := by
  obtain ⟨n, hn, full, hfull, rfl⟩ := exists_named_of_ground h
  have hbounds : full.InBounds := hfull.inBounds
  refine ⟨full.facts.nodup_names, fun i hi => ?_, fun name hname => ?_, hbounds.pruned, fun a ha f hf => ?_, ?_⟩
  · exact (full.facts.numbers_eq_some_iff _ i).2 (Task.names_name hi)
  · rw [Option.eq_none_iff_forall_ne_some]
    intro i hi
    exact hname (Array.mem_of_getElem? ((full.facts.numbers_eq_some_iff name i).1 hi))
  · rw [Task.Reached, Task.ReachedWithout, Task.relaxedLayers_pruned_empty hbounds.inRange]
    exact (Task.mem_actions_pruned.1 ha).2 f hf
  · calc full.pruned.actions.size ≤ full.actions.size := Array.size_filter_le ..
      _ = n.actions.length := hfull.actions.length_eq
      _ ≤ maxActions := NamedTask.length_actions_of hn

end Ground

end Waymark.Ground
