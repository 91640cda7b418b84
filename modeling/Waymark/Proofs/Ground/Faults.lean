import Mathlib.Tactic
import Waymark.Proofs.Ground.Named
import Waymark.Proofs.Planning.Faults

/-!
# Failures of grounding

Grounding fails only because of what stands in the domain and the problem: it refuses them, or an initial fact
is the empty list.

* `NumbersText`: refusals of computations that number facts;
* `blamesText_ground`, `refusesText_ground`: grounding in general, and without empty initial facts;
* `blamesText_ofText`: grounding a task that is given as texts.
-/

namespace Waymark.Ground

open Planning

variable {α β κ : Type}

/-- The computation fails only where it refuses the text of a task, whatever facts are numbered already. -/
def NumbersText (x : Numbering α) : Prop := ∀ table, RefusesText (x table)

section NumbersText

@[simp] theorem numbersText_pure (a : α) : NumbersText (pure a) := fun table => failsOnly_ok (a, table)

@[simp] theorem numbersText_throw {e : Failure} : NumbersText (throw e : Numbering α) ↔ e.IsRefusal := by
  constructor
  · exact fun h => failsOnly_error.1 (h FactTable.empty)
  · exact fun h _ => failsOnly_error.2 h

@[simp] theorem numbersText_liftM {x : Except Failure α} : NumbersText (liftM x : Numbering α) ↔ RefusesText x := by
  have hrun (table : FactTable) : (liftM x : Numbering α) table = (fun a => (a, table)) <$> x := by
    cases x <;> rfl
  constructor
  · intro h
    have hlift := h FactTable.empty
    rwa [hrun, RefusesText, failsOnly_map] at hlift
  · intro h table
    rwa [hrun, RefusesText, failsOnly_map]

/-- Of two computations in turn both fail only where they refuse the text. -/
theorem NumbersText.bind {x : Numbering α} {f : α → Numbering β} (hx : NumbersText x) (hf : ∀ a, NumbersText (f a)) :
    NumbersText (x >>= f) := by
  intro table
  have hrun : (x >>= f) table = x table >>= fun p => f p.1 p.2 := rfl
  rw [hrun, RefusesText, failsOnly_bind]
  exact ⟨hx table, fun p _ => hf p.1 p.2⟩

@[simp] theorem numbersText_internFact (name : String) : NumbersText (internFact name) :=
  fun table => failsOnly_ok (table.intern name)

theorem NumbersText.mapM {f : α → Numbering β} {xs : List α} (h : ∀ x ∈ xs, NumbersText (f x)) :
    NumbersText (xs.mapM f) := by
  induction xs with
  | nil => exact numbersText_pure []
  | cons x xs ih =>
    obtain ⟨hx, hxs⟩ := List.forall_mem_cons.1 h
    rw [List.mapM_cons]
    exact hx.bind fun y => (ih hxs).bind fun ys => numbersText_pure _

end NumbersText

/-! ## Literals -/

@[simp] theorem refusesText_resolve (binding : Binding) (arg : String) : RefusesText (binding.resolve arg) := by
  fun_cases Binding.resolve binding arg <;> simp

@[simp] theorem refusesText_resolveAll (binding : Binding) (args : List String) :
    RefusesText (binding.resolveAll args) := .mapM fun arg _ => refusesText_resolve binding arg

section Setting

variable (setting : Setting κ) (binding : Binding)

@[simp] theorem refusesText_decide (l : Literal) : RefusesText (setting.decide binding l) := by
  fun_cases Setting.decide setting binding l <;> simp

@[simp] theorem numbersText_factOf (l : Literal) : NumbersText (Setting.factOf binding l) := by
  cases l with
  | atom positive predicate args =>
    refine .bind ?_ fun args => .bind (numbersText_internFact _) fun fact => numbersText_pure _
    exact numbersText_liftM.2 (refusesText_resolveAll binding args)
  | equality positive a b => exact numbersText_throw.2 trivial

@[simp] theorem numbersText_factsOf (ls : List Literal) : NumbersText (Setting.factsOf binding ls) := by
  induction ls with
  | nil => exact numbersText_pure _
  | cons l ls ih =>
    exact (numbersText_factOf binding l).bind fun _ => ih.bind fun _ => numbersText_pure _

@[simp] theorem numbersText_conditionFacts (ls : List Literal) :
    NumbersText (setting.conditionFacts binding ls) := by
  induction ls with
  | nil => exact numbersText_pure _
  | cons l ls ih =>
    refine .bind (numbersText_liftM.2 (refusesText_decide setting binding l)) fun truth => ?_
    split
    · exact ih
    · exact numbersText_pure _
    · refine (numbersText_factOf binding l).bind fun _ => ih.bind fun found => ?_
      split <;> exact numbersText_pure _

@[simp] theorem numbersText_conditionalEffects (effects : List (List Literal × List Literal)) :
    NumbersText (setting.conditionalEffects binding effects) := by
  induction effects with
  | nil => exact numbersText_pure _
  | cons effect rest ih =>
    refine (numbersText_conditionFacts setting binding effect.1).bind fun found => ?_
    split
    · exact ih
    · exact (numbersText_factsOf binding effect.2).bind fun _ => ih.bind fun _ => numbersText_pure _

@[simp] theorem refusesText_cost [Number.Scale κ] (term : Option (CostTerm κ)) :
    RefusesText (setting.cost binding term) := by
  fun_cases Setting.cost setting binding term
  case case4 name args _ =>
    simp only [failsOnly_bind, refusesText_resolveAll, true_and]
    intro args _
    split <;> simp
  all_goals simp

/-! ## Assignments -/

@[simp] theorem refusesText_holdAll (ls : List Literal) : RefusesText (setting.holdAll binding ls) := by
  induction ls with
  | nil => exact failsOnly_ok true
  | cons l ls ih =>
    simp only [Setting.holdAll, failsOnly_bind, refusesText_decide, true_and]
    intro truth _
    split
    · exact ih
    · exact failsOnly_pure false

@[simp] theorem refusesText_holdEach (ls : List Literal) : RefusesText (setting.holdEach binding ls) := by
  induction ls with
  | nil => exact failsOnly_ok true
  | cons l ls ih => simp [Setting.holdEach, ih]

theorem refusesText_extend (binding : Binding) (args : List String) (slots : List Slot)
    (done : Nat × List (List String)) : RefusesText (setting.extend binding args slots done) := by
  induction slots generalizing binding args done with
  | nil =>
    unfold Setting.extend
    split <;> simp
  | cons slot slots ih =>
    refine .foldlM fun object _ done => ?_
    simp only [failsOnly_bind, refusesText_holdAll, true_and]
    intro holds _
    split
    · exact ih _ _ done
    · exact failsOnly_pure done

@[simp] theorem refusesText_assignments (slots : List Slot) (closed : List Literal) :
    RefusesText (setting.assignments slots closed) := by
  unfold Setting.assignments
  simp only [failsOnly_bind, refusesText_holdEach, true_and]
  intro holds _
  split
  · exact failsOnly_bind.2 ⟨refusesText_extend setting [] [] slots (0, []), fun _ _ => failsOnly_pure _⟩
  · exact failsOnly_pure []

end Setting

/-! ## Schemas and problems -/

variable [Number.Scale κ] (setting : Setting κ)

@[simp] theorem refusesText_readLifted (s : Schema) : RefusesText (LiftedAction.read (κ := κ) s) := by
  obtain ⟨name, params, condition, effect⟩ := s
  cases condition <;> cases effect <;> simp [LiftedAction.read]

@[simp] theorem numbersText_instantiate (a : LiftedAction κ) (args : List String) :
    NumbersText (setting.instantiate a args) := by
  refine (numbersText_conditionFacts setting _ a.condition).bind fun found => ?_
  split
  · exact numbersText_pure none
  · refine (numbersText_factsOf _ a.effect.literals).bind fun _ => ?_
    refine (numbersText_conditionalEffects setting _ a.effect.conditional).bind fun _ => ?_
    exact .bind (numbersText_liftM.2 (refusesText_cost setting _ a.effect.cost)) fun _ => numbersText_pure _

theorem numbersText_instantiateAll (a : LiftedAction κ) (found : List (List String)) (done : Array (Action κ)) :
    NumbersText (setting.instantiateAll a found done) := by
  induction found generalizing done with
  | nil => exact numbersText_pure done
  | cons args rest ih =>
    refine (numbersText_instantiate setting a args).bind fun action => ?_
    split
    · exact ih done
    · split
      · exact numbersText_throw.2 trivial
      · exact ih _

theorem numbersText_groundActions (types objects : List TypedName) (actions : List (LiftedAction κ))
    (done : Array (Action κ)) : NumbersText (setting.groundActions types objects actions done) := by
  induction actions generalizing done with
  | nil => exact numbersText_pure done
  | cons a rest ih =>
    refine .bind (numbersText_liftM.2 (refusesText_assignments setting _ _)) fun found => ?_
    exact (numbersText_instantiateAll setting a found done).bind ih

theorem blamesText_initial (entries : List Expr) (values : Std.HashMap String κ) :
    BlamesText (Initial.read entries values) := by
  fun_induction Initial.read entries values <;> simp [*]

theorem refusesText_initial {entries : List Expr} (h : .list [] ∉ entries) (values : Std.HashMap String κ) :
    RefusesText (Initial.read entries values) := by
  fun_induction Initial.read entries values <;> simp_all

theorem numbersText_goalFacts (ls : List Literal) : NumbersText (goalFacts ls) := by
  induction ls with
  | nil => exact numbersText_pure _
  | cons l ls ih =>
    cases l with
    | atom positive predicate args =>
      exact (numbersText_factOf [] (.atom positive predicate args)).bind fun _ => ih.bind fun _ => numbersText_pure _
    | equality positive a b =>
      unfold goalFacts
      split
      · exact ih
      · exact (numbersText_internFact _).bind fun _ => ih.bind fun _ => numbersText_pure _

/-- Grounding fails where it refuses the text, and as the initial entries do. -/
theorem failsOnly_groundFully {P : Failure → Prop} (hP : ∀ e : Failure, e.IsRefusal → P e) (domain : Domain)
    {problem : Problem} (hinitial : FailsOnly P (Initial.read (κ := κ) problem.init ∅)) :
    FailsOnly P (Task.groundFully (κ := κ) domain problem) := by
  unfold Task.groundFully
  rw [failsOnly_bind]
  refine ⟨.mapM fun s _ => (refusesText_readLifted s).imp hP, fun actions _ => ?_⟩
  rw [failsOnly_bind]
  refine ⟨hinitial, fun initial _ => ?_⟩
  rw [failsOnly_map]
  refine FailsOnly.imp ?_ hP
  refine NumbersText.bind (.mapM fun name _ => numbersText_internFact name) (fun init => ?_) FactTable.empty
  refine (numbersText_groundActions _ _ _ actions #[]).bind fun actions => ?_
  refine .bind (numbersText_liftM.2 (refusesText_readCondition problem.goal)) fun goal => ?_
  refine (numbersText_goalFacts goal).bind fun _ => .bind (fun table => failsOnly_ok (table, table)) fun _ => ?_
  exact numbersText_pure _

/-- Grounding fails only because of the domain and the problem. -/
theorem blamesText_ground (domain : Domain) (problem : Problem) :
    BlamesText (Task.ground (κ := κ) domain problem) :=
  failsOnly_map.2 (failsOnly_groundFully (fun _ => Failure.IsRefusal.isOfTask) domain (blamesText_initial _ ∅))

/-- Without empty initial facts, grounding fails only where it refuses the domain or the problem. -/
theorem refusesText_ground (domain : Domain) {problem : Problem} (h : .list [] ∉ problem.init) :
    RefusesText (Task.ground (κ := κ) domain problem) :=
  failsOnly_map.2 (failsOnly_groundFully (fun _ he => he) domain (refusesText_initial h ∅))

/-- Grounding two texts fails only because of what they say. -/
theorem blamesText_ofText (task : TaskText) : BlamesText (Task.ofText (κ := κ) task) :=
  failsOnly_bind.2 ⟨(refusesText_taskText task).imp fun _ => Failure.IsRefusal.isOfTask,
    fun found _ => blamesText_ground found.1 found.2⟩

end Waymark.Ground
