import Mathlib.Tactic
import Waymark.Proofs.Landmark.Exhaustive
import Waymark.Proofs.Landmark.GreedyNecessary
import Waymark.Proofs.Landmark.LabelPlans

/-!
# Achievers of landmarks on runs

Whatever the method, the step of a run that meets a landmark first takes one of its possible achievers, and
one of its first achievers has been taken by then. It may have been taken before: a first achiever that
withholds the landmark can enable another action, which is no first achiever, to meet it.

* `Survey.found`: the draft that a method yields, with `exists_of_mem_landmarks_extract` and
  `lt_size_of_mem_found`;
* `extract_first_achievers`: the achievers that a run takes.
-/

namespace Waymark.Landmark

open Ground

variable {κ : Type}

/-- The draft that a method yields. -/
def Survey.found (s : Survey κ) : Category → Draft
  | .rhw => s.backchained
  | .zg => s.labelled
  | .exhaust => s.exhaustive

/-- If the relaxation reaches the goal, the landmarks are those of the draft that the method yields. -/
theorem extract_of_goalReached {t : Ground.Task κ} (h : (Survey.of t).goalReached (Survey.of t).layers = true)
    (category : Category) : extract t category = (Survey.of t).finish ((Survey.of t).found category) := by
  unfold extract
  dsimp only
  rw [if_pos h]
  cases category <;> rfl

/-- The landmarks of a method are the candidates of the draft that it yields. -/
theorem exists_of_mem_landmarks_extract {t : Ground.Task κ} {category : Category} {l : Landmark}
    (hl : l ∈ (extract t category).landmarks) :
    (Survey.of t).goalReached (Survey.of t).layers = true ∧
      ∃ id, ∃ c ∈ ((Survey.of t).found category).candidates, l = (Survey.of t).landmark id c := by
  by_cases hreached : (Survey.of t).goalReached (Survey.of t).layers = true
  · rw [extract_of_goalReached hreached] at hl
    exact ⟨hreached, exists_of_mem_landmarks_finish hl⟩
  · unfold extract at hl
    dsimp only at hl
    rw [if_neg hreached] at hl
    cases hl

/-- Every method yields candidates of facts of the task. -/
theorem lt_size_of_mem_found {t : Ground.Task κ} (ht : t.NeedsInRange) {category : Category} {c : Candidate}
    (hc : c ∈ ((Survey.of t).found category).candidates) : ∀ f ∈ c.facts, f < t.facts.size := by
  cases category with
  | rhw => exact ((coherent_backchained (s := Survey.of t) ht).uniform c hc).inRange
  | zg =>
    obtain ⟨f, hf, rfl⟩ := (mem_candidates_labelled (s := Survey.of t)).1 hc
    have hlt : f < t.facts.size := lt_size_of_mem_labelFacts hf
    simpa using hlt
  | exhaust =>
    obtain ⟨f, hf, rfl⟩ := (exhaustive_spec (Survey.of t)).1 c hc
    simpa using lt_size_of_mem_necessaryFacts ht hf

variable [Number.Scale κ]

/-- **Achievers of landmarks.** On a run that does not start with the landmark met, the action that meets it
first is a possible achiever. A first achiever is taken at that step, or at an earlier one that withholds the
landmark. In particular the action that meets the landmark first is a first achiever if no effect under a
condition adds the landmark. -/
theorem extract_first_achievers {domain : Planning.Domain} {problem : Planning.Problem} {t : Ground.Task κ}
    (hground : Task.ground domain problem = .ok t) {is : List Nat} {ss : List State}
    (hvisited : t.visited t.initialState is = some ss) (category : Category) :
    ∀ l ∈ (extract t category).landmarks, ∀ k, FirstMet t ss l (k + 1) →
      ∃ i, is[k]? = some i ∧ t.actionName i ∈ l.possibleAchievers ∧
        (∃ j ≤ k, ∃ i', is[j]? = some i' ∧ t.actionName i' ∈ l.firstAchievers ∧
          (j = k ∨ Withheld t is ss l j)) ∧
        (AddedOutright t l → t.actionName i ∈ l.firstAchievers) := by
  intro l hl k hk
  have ht := Task.inRange_of_ground hground
  obtain ⟨-, id, c, hc, rfl⟩ := exists_of_mem_landmarks_extract hl
  have hrange := lt_size_of_mem_found (Task.needsInRange_of_ground hground) hc
  obtain ⟨i, hi, hadder, j, hj, i', hi', hfirst, -, hlast⟩ :=
    FirstMet.exists_firstAchiever (s := Survey.of t) hrange ht hvisited hk
  have hname : t.actionName i' ∈ ((Survey.of t).landmark id c).firstAchievers := List.mem_map_of_mem hfirst
  refine ⟨i, hi, List.mem_map_of_mem hadder, ⟨j, hj, i', hi', hname, hlast⟩, fun houtright => ?_⟩
  obtain rfl := hlast.resolve_right (houtright.not_withheld ht hvisited)
  obtain rfl := Option.some.inj (hi.symm.trans hi')
  exact hname

/-- A message can be sent from the queue, though only putting it there is a first achiever. -/
theorem exists_unlisted_outbox : ∃ (t : Ground.Task κ) (is : List Nat) (ss : List State),
    Task.ground outbox message = .ok t ∧ t.IsPlanVia is ss ∧ ∃ l ∈ (extract t .exhaust).landmarks,
      FirstMet t ss l 3 ∧ ∃ i, is[2]? = some i ∧ t.actionName i ∉ l.firstAchievers := by
  obtain ⟨⟨names, numbers, hnumbers⟩, hnames, hground, hplan⟩ := exists_plan_outbox (κ := κ)
  subst hnames
  have hlandmarks : (extract (outboxTask (κ := κ) ⟨_, numbers, hnumbers⟩) .exhaust).landmarks.map
      (fun l => (l.facts, l.firstAchievers)) = [(["(drafted)"], ["(draft)"]), (["(queued)"], ["(submit)"]),
        (["(logged)"], ["(submit)"]), (["(sent)"], ["(submit)"])] := by cbv
  obtain ⟨l, hl, heq⟩ := List.mem_map.1 (show (["(sent)"], ["(submit)"]) ∈ _ by rw [hlandmarks]; simp)
  obtain ⟨hfacts, hfirst⟩ := Prod.mk.inj heq
  refine ⟨_, _, _, hground, hplan, l, hl, ⟨⟨⟨#[6]⟩, rfl, ?_⟩, ?_⟩, 2, rfl, ?_⟩
  · rw [met_iff_of_names (t := outboxTask ⟨_, numbers, hnumbers⟩) (f := 2) hfacts rfl]
    decide
  · rw [met_iff_of_names (t := outboxTask ⟨_, numbers, hnumbers⟩) (f := 2) hfacts rfl]
    decide
  · have hname : (outboxTask (κ := κ) ⟨_, numbers, hnumbers⟩).actionName 2 = "(flush)" := rfl
    rw [hname, hfirst]
    decide

theorem extract_first_achievers_outbox :
    ∃ (t : Ground.Task Number.Double) (is : List Nat) (ss : List State),
      Task.ground outbox message = .ok t ∧ t.IsPlanVia is ss ∧ ∃ l ∈ (extract t .exhaust).landmarks,
        FirstMet t ss l 3 ∧ ∃ i, is[2]? = some i ∧ t.actionName i ∈ l.possibleAchievers ∧
          t.actionName i ∉ l.firstAchievers ∧ ∃ j < 2, Withheld t is ss l j := by
  obtain ⟨t, is, ss, hground, hplan, l, hl, hmet, i, hi, hnot⟩ := exists_unlisted_outbox (κ := Number.Double)
  obtain ⟨i₀, hi₀, hpossible, ⟨j, hj, i', hi', hfirst, hlast⟩, -⟩ :=
    extract_first_achievers hground hplan.1 .exhaust l hl 2 hmet
  obtain rfl := Option.some.inj (hi.symm.trans hi₀)
  have hne : j ≠ 2 := by
    rintro rfl
    obtain rfl := Option.some.inj (hi.symm.trans hi')
    exact hnot hfirst
  exact ⟨t, is, ss, hground, hplan, l, hl, hmet, i, hi, hpossible, hnot, j, Nat.lt_of_le_of_ne hj hne,
    hlast.resolve_left hne⟩

/-- The action that meets a landmark first need not be one of its first achievers. -/
theorem extract_first_achievers_unlisted_outbox :
    ¬ ∀ (t : Ground.Task Number.Double) (is : List Nat) (ss : List State),
      Task.ground outbox message = .ok t → t.visited t.initialState is = some ss →
        ∀ category, ∀ l ∈ (extract t category).landmarks, ∀ k i, FirstMet t ss l (k + 1) → is[k]? = some i →
          t.actionName i ∈ l.firstAchievers := by
  intro hall
  obtain ⟨t, is, ss, hground, hplan, l, hl, hmet, i, hi, hnot⟩ := exists_unlisted_outbox (κ := Number.Double)
  exact hnot (hall t is ss hground hplan.1 .exhaust l hl 2 i hmet hi)

end Waymark.Landmark
