import Mathlib.Tactic
import Waymark.Proofs.Ground.Faults
import Waymark.Proofs.Landmark.DepthFirst
import Waymark.Proofs.Landmark.Methods
import Waymark.Proofs.Landmark.Numbered

/-!
# Extracted graphs are valid

Every method numbers its landmarks from 0 on, has no landmark twice, and orders landmarks from smaller to greater
numbers. So its graph has a topological order, and extraction never finds fault with its own graph.

* `Graph.Regular`, `regular_extract`: the form of the graphs;
* `extractText_error`: what extraction can fail of;
* `extract_valid`: both together.
-/

namespace Waymark.Landmark

open Ground

variable {κ : Type}

/-- The numbers are the places, landmarks have different sets of facts, and orderings lead from smaller to
greater numbers. -/
structure Graph.Regular (g : Graph) : Prop where
  ids_eq : g.ids = List.range g.landmarks.length
  facts_nodup : (g.landmarks.map fun l => l.facts.toFinset).Nodup
  ascending : ∀ o ∈ g.orders, o.first < o.second ∧ o.second < g.landmarks.length

/-- Regular graphs are valid. -/
theorem Graph.Regular.validate {g : Graph} (h : g.Regular) : g.validate = .ok () := by
  have hmem (id : Nat) : id ∈ g.ids ↔ id < g.landmarks.length := by
    rw [h.ids_eq, List.mem_range]
  have hlength : g.ids.length = g.landmarks.length := List.length_map _
  refine Graph.validate_of_ranked (fun id => id) ?_ ?_ ?_ ?_
  · rw [h.ids_eq]
    exact List.nodup_range
  · intro o ho
    obtain ⟨hlt, hsecond⟩ := h.ascending o ho
    exact ⟨(hmem _).2 (hlt.trans hsecond), (hmem _).2 hsecond⟩
  · exact fun id hid => hlength ▸ (hmem id).1 hid
  · exact fun o ho => (h.ascending o ho).1

/-- The graph of a draft is regular. -/
theorem Draft.Regular.finish {s : Survey κ} {d : Draft} (h : d.Regular s)
    (hrange : ∀ c ∈ d.candidates, ∀ f ∈ c.facts, f < s.task.facts.size) : (s.finish d).Regular where
  ids_eq := ids_finish s d
  facts_nodup := nodup_facts_finish h hrange
  ascending := fun _ => lt_of_mem_orders_finish h

/-- All methods extract regular graphs. -/
theorem regular_extract {t : Ground.Task κ} (ht : t.NeedsInRange) (category : Category) :
    (extract t category).Regular := by
  by_cases hreached : (Survey.of t).goalReached (Survey.of t).layers = true
  · rw [extract_of_goalReached hreached]
    exact (drafted_found _ category).regular.finish fun c hc => lt_size_of_mem_found ht hc
  · have hempty : extract t category = {} := by
      unfold extract
      exact if_neg hreached
    rw [hempty]
    exact ⟨rfl, List.nodup_nil, nofun⟩

variable [Number.Scale κ]

/-- Extraction fails of a method that it does not know, or of the text of the task. -/
theorem extractText_error {task : Planning.TaskText} {name : String} {e : Failure}
    (h : extractText κ task name = .error e) : e = .unknownCategory name ∨ e = .emptyTask ∨ e.IsOfTask := by
  have hfails : FailsOnly (fun e => e = .unknownCategory name ∨ e = .emptyTask ∨ e.IsOfTask)
      (extractText κ task name) := by
    unfold extractText
    rw [failsOnly_bind]
    refine ⟨?_, fun category _ => ?_⟩
    · unfold Category.read
      split <;> simp
    rw [failsOnly_bind]
    refine ⟨?_, fun _ _ => ?_⟩
    · unfold Planning.TaskText.requirePresent
      split <;> simp
    rw [failsOnly_bind]
    refine ⟨fun e he => .inr (.inr (blamesText_ofText task e he)), fun t ht => ?_⟩
    obtain ⟨⟨domain, problem⟩, -, hground⟩ := bind_eq_ok.1 ht
    rw [failsOnly_bind, (regular_extract (Task.needsInRange_of_ground hground) category).validate]
    exact ⟨failsOnly_ok (), fun _ _ => failsOnly_pure _⟩
  exact hfails e h

variable (κ) in
/-- **Extraction never returns or reports a bad graph.** By whichever method, the graph of a ground task has the
places of its landmarks as their numbers, landmarks with different sets of facts, and orderings from smaller to
greater numbers, and it is valid. So no extraction fails of a cycle or of unusable landmarks. -/
theorem extract_valid :
    (∀ (domain : Planning.Domain) (problem : Planning.Problem) (t : Ground.Task κ),
      Task.ground domain problem = .ok t → ∀ category : Category,
        (extract t category).ids = List.range (extract t category).landmarks.length ∧
        ((extract t category).landmarks.map fun l => l.facts.toFinset).Nodup ∧
        (∀ o ∈ (extract t category).orders,
          o.first < o.second ∧ o.second < (extract t category).landmarks.length) ∧
        (extract t category).validate = .ok ()) ∧
    ∀ (task : Planning.TaskText) (name : String),
      (∀ id, extractText κ task name ≠ .error (.cycle id)) ∧
      ∀ fault, extractText κ task name ≠ .error (.data fault) := by
  refine ⟨fun domain problem t hground category => ?_, fun task name => ⟨fun id h => ?_, fun fault h => ?_⟩⟩
  · have hregular := regular_extract (Task.needsInRange_of_ground hground) category
    exact ⟨hregular.ids_eq, hregular.facts_nodup, hregular.ascending, hregular.validate⟩
  · rcases extractText_error h with hunknown | hempty | htask
    · cases hunknown
    · cases hempty
    · exact htask
  · rcases extractText_error h with hunknown | hempty | htask
    · cases hunknown
    · cases hempty
    · exact htask

theorem extract_valid_outbox : ∃ t : Ground.Task Number.Double, Task.ground outbox message = .ok t ∧
    (∃ l ∈ (extract t .rhw).landmarks, l.facts = ["(drafted)"]) ∧ (extract t .rhw).validate = .ok () := by
  obtain ⟨t, hground, l, hl, -, hfacts⟩ := exists_found_outbox (κ := Number.Double)
  obtain ⟨-, -, -, hvalid⟩ := (extract_valid Number.Double).1 outbox message t hground .rhw
  exact ⟨t, hground, ⟨l, hl, hfacts⟩, hvalid⟩

end Waymark.Landmark
