import Mathlib.Tactic
import Waymark.Landmark.Extraction
import Waymark.Number.Exact
import Waymark.Proofs.Landmark.Achievers

/-!
# Landmarks by backchaining are met

A plan that meets a landmark takes one of its first achievers, whatever that action then adds. Hence it
meets what all first achievers need, and each choice of facts of which every first achiever needs one.

* `IsMet`: the invariant of drafts, which `isMet_expand` and `isMet_backchainFrom` keep;
* `extract_rhw_sound`: every plan meets the landmarks.
-/

namespace Waymark.Landmark

open Ground

variable {κ : Type} {s : Survey κ} {ss : List State} {fs : List Nat}

/-! ## Drafts -/

/-- A fact holds in one of the states. -/
def Occurs (ss : List State) (f : Nat) : Prop := ∃ x ∈ ss, x.contains f = true

/-- One of the facts holds in one of the states, and either all or none of them hold initially. -/
structure Candidate.IsMet (s : Survey κ) (ss : List State) (c : Candidate) : Prop where
  occurs : ∃ f ∈ c.facts, Occurs ss f
  uniform : c.facts.all s.task.isInitial = true ∨ ∀ f ∈ c.facts, s.task.isInitial f = false

/-- All landmarks of the draft are met. -/
def Draft.IsMet (s : Survey κ) (ss : List State) (d : Draft) : Prop := ∀ c ∈ d.candidates, c.IsMet s ss

variable {d : Draft}

theorem Draft.IsMet.add {kind : Kind} (h : d.IsMet s ss)
    (hnew : Candidate.IsMet s ss ⟨ascending fs, kind⟩) : (d.add fs kind).1.IsMet s ss := by
  intro c hc
  rcases Draft.mem_candidates_add hc with hc | rfl
  · exact h c hc
  · exact hnew

theorem Draft.IsMet.order (h : d.IsMet s ss) (first second : Nat) (kind : OrderKind) :
    (s.order d first second kind).IsMet s ss := by
  rw [Draft.IsMet, Survey.candidates_order]
  exact h

/-- A single fact holds initially or does not. -/
theorem uniform_singleton (s : Survey κ) (f : Nat) :
    [f].all s.task.isInitial = true ∨ ∀ g ∈ [f], s.task.isInitial g = false := by
  rcases Bool.eq_false_or_eq_true (s.task.isInitial f) with hf | hf
  · exact .inl (by simpa using hf)
  · exact .inr (by simpa using hf)

/-- None of the facts of a choice that is added holds initially. -/
theorem not_isInitial_of_choice (h : ¬ (fs.any fun f => s.task.isInitial f || d.hasFact f) = true) :
    ∀ f ∈ ascending fs, s.task.isInitial f = false := by
  intro f hf
  rw [Bool.eq_false_iff]
  intro hinitial
  exact h (List.any_eq_true.2 ⟨f, mem_ascending.1 hf, by rw [hinitial]; rfl⟩)

/-- A single fact is met if it occurs. -/
theorem isMet_fact {f : Nat} {kind : Kind} (h : Occurs ss f) :
    Candidate.IsMet s ss ⟨ascending [f], kind⟩ := by
  rw [ascending_singleton]
  exact ⟨⟨f, List.mem_singleton_self f, h⟩, uniform_singleton s f⟩

theorem isMet_addShared (current : Nat) {shared : List Nat} (h : d.IsMet s ss)
    (hshared : ∀ f ∈ shared, Occurs ss f) : (s.addShared current d shared).1.IsMet s ss := by
  induction shared generalizing d with
  | nil => exact h
  | cons f shared ih =>
    obtain ⟨hf, hshared⟩ := List.forall_mem_cons.1 hshared
    unfold Survey.addShared
    split
    · exact ih h hshared
    · exact ih ((h.add (isMet_fact hf)).order _ _ _) hshared

theorem isMet_addChoices (current : Nat) {choices : List (List Nat)} (h : d.IsMet s ss)
    (hchoices : ∀ facts ∈ choices, ∃ f ∈ facts, Occurs ss f) :
    (s.addChoices current d choices).IsMet s ss := by
  refine List.foldlRecOn (motive := Draft.IsMet s ss) _ _ h fun d hd facts hfacts => ?_
  dsimp only
  split
  · exact hd
  · rename_i hnone
    obtain ⟨f, hf, hoccurs⟩ := hchoices facts hfacts
    have hnew : ∃ f ∈ ascending facts, Occurs ss f := ⟨f, mem_ascending.2 hf, hoccurs⟩
    exact Draft.IsMet.order (hd.add ⟨hnew, .inr (not_isInitial_of_choice hnone)⟩) _ _ _

/-- What all actions of a list need, each of them needs. -/
theorem mem_needs_of_mem_sharedNeeds {actions : List Nat} {f i : Nat} (hf : f ∈ s.sharedNeeds actions)
    (hi : i ∈ actions) : f ∈ s.needs i := by
  cases actions with
  | nil => cases hi
  | cons a rest =>
    obtain ⟨ha, hrest⟩ := List.mem_filter.1 (mem_ascending.1 hf)
    rcases List.mem_cons.1 hi with rfl | hi
    · exact ha
    · exact List.contains_iff_mem.1 (List.all_eq_true.1 hrest i hi)

/-- Each of the actions needs one of the facts of a choice. -/
theorem exists_mem_needs_of_mem_choices {shared actions facts : List Nat} {i : Nat}
    (hfacts : facts ∈ s.choices shared actions) (hi : i ∈ actions) : ∃ f ∈ facts, f ∈ s.needs i := by
  obtain ⟨predicate, -, hsome⟩ := List.mem_filterMap.1 hfacts
  dsimp only at hsome
  split at hsome
  · rename_i hcond
    obtain rfl := Option.some.inj hsome
    have hall := (Bool.and_eq_true_iff.1 (Bool.and_eq_true_iff.1 hcond).1).1
    have hnonempty := List.all_eq_true.1 hall _ (List.mem_map_of_mem hi)
    obtain ⟨f, hf⟩ := List.exists_mem_of_ne_nil (s.needsOf shared predicate i) (by simpa using hnonempty)
    refine ⟨f, mem_ascending.2 (List.mem_flatten.2 ⟨_, List.mem_map_of_mem hi, hf⟩), ?_⟩
    exact (List.mem_filter.1 hf).1
  · cases hsome

/-- A fact of a choice is one that some of the actions need. -/
theorem exists_needs_of_mem_choices {shared actions facts : List Nat} {f : Nat}
    (hfacts : facts ∈ s.choices shared actions) (hf : f ∈ facts) : ∃ i, f ∈ s.needs i := by
  obtain ⟨predicate, -, hsome⟩ := List.mem_filterMap.1 hfacts
  dsimp only at hsome
  split at hsome
  · obtain rfl := Option.some.inj hsome
    obtain ⟨needed, hneeded, hf⟩ := List.mem_flatten.1 (mem_ascending.1 hf)
    obtain ⟨i, -, rfl⟩ := List.mem_map.1 hneeded
    exact ⟨i, (List.mem_filter.1 hf).1⟩
  · cases hsome

/-- What every step of backchaining keeps, backchaining keeps. -/
theorem Survey.backchainFrom_keeps {P : Draft → Prop} (hstep : ∀ d current, P d → P (s.expand d current).1)
    (h : P d) (steps : Nat) (waiting : List Nat) : P (s.backchainFrom steps d waiting) := by
  induction steps generalizing d waiting with
  | zero => exact h
  | succ steps ih =>
    cases waiting with
    | nil => exact h
    | cons current waiting => exact ih (hstep d current h) _

/-! ## Soundness -/

section Plans

variable (ht : s.task.InRange) {is : List Nat}
  (hvisited : s.task.visited s.task.initialState is = some ss)
include ht hvisited

theorem isMet_expand (h : d.IsMet s ss) (current : Nat) : (s.expand d current).1.IsMet s ss := by
  unfold Survey.expand
  dsimp only
  split
  case isTrue => exact h
  rename_i hnotInitial
  split
  case isTrue => exact h
  -- The landmark is met and does not hold initially, so what one of its first achievers needs occurs.
  obtain ⟨c, hc, hfacts⟩ := Draft.exists_of_facts_ne_nil (d := d) fun hnil => hnotInitial (by rw [hnil]; rfl)
  have hc := Array.mem_of_getElem? hc
  rw [hfacts] at hnotInitial ⊢
  obtain ⟨f, hf, x, hx, hholds⟩ := (h c hc).occurs
  obtain ⟨i, hi, y, hy, hneeds⟩ := Survey.exists_firstAchiever_of_met ht hvisited
    ((h c hc).uniform.resolve_left hnotInitial) ⟨x, hx, f, hf, hholds⟩
  refine isMet_addChoices _ (isMet_addShared _ h fun f hf => ?_) fun facts hfacts => ?_
  · exact ⟨y, hy, hneeds f (mem_needs_of_mem_sharedNeeds hf hi)⟩
  · obtain ⟨f, hf, hneed⟩ := exists_mem_needs_of_mem_choices hfacts hi
    exact ⟨f, hf, y, hy, hneeds f hneed⟩

theorem isMet_backchainFrom (h : d.IsMet s ss) (steps : Nat) (waiting : List Nat) :
    (s.backchainFrom steps d waiting).IsMet s ss :=
  Survey.backchainFrom_keeps (P := Draft.IsMet s ss) (fun _ current hd => isMet_expand ht hvisited hd current) h
    steps waiting

end Plans

theorem isMet_goalPlaces {is : List Nat} (hplan : s.task.IsPlanVia is ss) : s.goalPlaces.1.IsMet s ss := by
  obtain ⟨-, last, hlast, hgoal⟩ := hplan
  have hgoals := State.containsAll_iff.1 (Bool.and_eq_true_iff.1 hgoal).1
  refine List.foldlRecOn (motive := fun p : Draft × List Nat => p.1.IsMet s ss) _ _ ?_ fun p hp g hg => ?_
  · intro c hc
    simp at hc
  · exact hp.add (isMet_fact ⟨last, List.mem_of_getLast? hlast, hgoals g hg⟩)

/-- **Landmarks by backchaining are sound.** Every plan meets every landmark, be it a single fact or a
choice of facts. -/
theorem extract_rhw_sound [Number.Scale κ] {domain : Planning.Domain} {problem : Planning.Problem}
    {t : Ground.Task κ} (hground : Task.ground domain problem = .ok t) {is : List Nat}
    (hplan : t.IsPlanVia is ss) : ∀ l ∈ (extract t .rhw).landmarks, Met t ss l := by
  have ht := Task.inRange_of_ground hground
  unfold extract
  dsimp only
  split
  case isFalse => exact nofun
  intro l hl
  obtain ⟨id, c, hc, rfl⟩ := exists_of_mem_landmarks_finish hl
  have hmet : (Survey.of t).backchained.IsMet (Survey.of t) ss :=
    isMet_backchainFrom ht hplan.1 (isMet_goalPlaces hplan) _ _
  obtain ⟨f, hf, x, hx, hholds⟩ := (hmet c hc).occurs
  have hlt : f < t.facts.size := Task.lt_size_of_contains ht hplan.1 hx hholds
  exact ⟨t.facts.name f, List.mem_map_of_mem hf, x, hx, (Task.holdsIn_name hlt).trans hholds⟩

theorem extract_rhw_sound_posting :
    ∃ (t : Ground.Task Number.Exact) (is : List Nat) (ss : List State),
      Task.ground posting letter = .ok t ∧ t.IsPlanVia is ss ∧
      ∀ l ∈ (extract t .rhw).landmarks, Met t ss l := by
  obtain ⟨t, ht, is, ss, hplan⟩ := exists_plan_posting (κ := Number.Exact)
  exact ⟨t, is, ss, ht, hplan, extract_rhw_sound ht hplan⟩

end Waymark.Landmark
