import Mathlib.Tactic
import Waymark.Number.Double
import Waymark.Proofs.Ground.TableAccess
import Waymark.Proofs.Landmark.GraphAccess
import Waymark.Proofs.Plan.Arena

/-!
# Ground tasks are safe to use

Grounding reads and writes its tables at places that exist, and either refuses the text of a task or makes a
well-formed one. What is done with a ground task afterwards goes by the numbers of its facts and actions: no array
is left then either.

* `Task.Safe`: exploration, extraction and search have results, those of the unchecked ones;
* `ground_safe`: grounding, and all that follows.
-/

namespace Waymark.Ground

open Number Planning

variable {κ : Type} [Scale κ]

/-- Nothing that is done with the task leaves an array: exploration, whatever actions it leaves out, the extraction of
landmarks by any method, and the search for plans within any bounds. -/
structure Task.Safe (t : Task κ) : Prop where
  relaxedLayers : ∀ excluded, t.relaxedLayers? excluded = some (t.relaxedLayers excluded)
  extract : ∀ category, Landmark.extract? t category = some (Landmark.extract t category)
  search : ∀ bounds, Plan.search? t bounds = some (Plan.search t bounds)

/-- Tasks in bounds are safe. -/
theorem Task.InBounds.safe {t : Task κ} (ht : t.InBounds) : t.Safe where
  relaxedLayers := Task.relaxedLayers?_eq_some ht
  extract := Landmark.extract?_eq_some ht
  search := Plan.search?_eq_some t

/-- **Ground tasks are well formed and safe to use.** Unless an initial entry is the empty list, grounding stays
inside its tables and fails only where it refuses the text; the task that it makes is well formed, and nothing that
is done with it leaves an array. -/
theorem ground_safe {domain : Domain} {problem : Problem} (h : .list [] ∉ problem.init) :
    Checked.EndsAs (Task.ground? domain problem) (Task.ground (κ := κ) domain problem) ∧
    RefusesText (Task.ground (κ := κ) domain problem) ∧
    ∀ t : Task κ, Task.ground domain problem = .ok t → t.WellFormed ∧ t.Safe := by
  refine ⟨endsAs_ground h, refusesText_ground domain h, fun t ht => ?_⟩
  have hformed : t.WellFormed := wellFormed_of_ground ht
  exact ⟨hformed, hformed.inBounds.safe⟩

/-- A message waits in the queue from the start. -/
theorem ground_safe_undrafted : queuedMessage.init = [atomExpr "queued"] ∧ Expr.list [] ∉ queuedMessage.init ∧
    ∃ t : Task Double, Task.ground? undrafted queuedMessage = ExceptT.mk (some (.ok t)) ∧ t.init = [0] ∧
      t.WellFormed ∧ t.Safe := by
  have h : Expr.list [] ∉ queuedMessage.init := by decide
  obtain ⟨facts, hfull, -⟩ := exists_groundFully_undrafted (κ := Double)
  have hground : Task.ground undrafted queuedMessage = .ok (undraftedTask (κ := Double) facts).pruned := by
    rw [Task.ground, hfull]
    rfl
  obtain ⟨hends, -, hsafe⟩ := @ground_safe Double _ undrafted queuedMessage h
  rw [hground] at hends
  exact ⟨rfl, h, _, hends, rfl, hsafe _ hground⟩

end Waymark.Ground
