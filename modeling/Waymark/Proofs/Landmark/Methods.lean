import Mathlib.Tactic
import Waymark.Proofs.Landmark.FirstAchievers

/-!
# The methods compared

A single fact that labels or backchaining find as a landmark is found by exclusion too. What is reached
without the actions that may add a fact has labels without the fact. What is reached without the actions that
may add what all first achievers of a landmark need is reached without the actions that may add the landmark.

* `Survey.reached_avoiding_least`, `not_reached_self`: what is reached without the actions that may add some
  facts;
* `isNecessary_of_mem_labelFacts`: the facts that labels find are necessary;
* `Candidate.Needed`, `forall_candidates_backchained`: the invariant of backchaining;
* `extract_consistent`: the landmarks of all methods among those by exclusion, and those met initially.
-/

namespace Waymark.Landmark

open Ground

variable {κ : Type} {s : Survey κ} {t : Ground.Task κ} {fs : List Nat} {f g : Nat}

/-! ## Exploration without adders -/

/-- What is reached without the actions that may add some facts lies in every set that holds the initial
facts and is closed under all other actions. -/
theorem Survey.reached_avoiding_least {P : Nat → Prop} (hinit : ∀ f ∈ s.task.init, P f)
    (hclosed : ∀ i a, s.task.actions[i]? = some a → i ∉ s.task.adders fs → ∀ reached : Nat → Bool,
      (∀ f, reached f = true → P f) → ∀ f ∈ a.relaxedAdds reached, P f)
    (hf : (s.layersAvoiding fs).reached f = true) : P f := by
  have hf : s.task.ReachedWithout (s.adderMask fs) f := hf
  refine Task.reachedWithout_least ?_ hinit hf
  intro i a hi ha
  have hlt : i < s.task.actions.size := (Array.getElem?_eq_some_iff.1 ha).1
  rw [adderMask, getD_excluded _ _ hlt, decide_eq_false_iff_not] at hi
  exact hclosed i a ha hi

/-- What an action adds whose needs are reached without the actions that may add some facts is so reached,
unless it is one of these actions. -/
theorem Survey.reached_avoiding_of_relaxedAdds (ht : s.task.InRange) {i : Nat} {a : Action κ}
    (ha : s.task.actions[i]? = some a) (hi : i ∉ s.task.adders fs)
    (hf : f ∈ a.relaxedAdds (s.layersAvoiding fs).reached) : (s.layersAvoiding fs).reached f = true := by
  have hlt : i < s.task.actions.size := (Array.getElem?_eq_some_iff.1 ha).1
  have htaken : (s.adderMask fs).getD i false = false := by
    rw [adderMask, getD_excluded _ _ hlt, decide_eq_false hi]
  exact Task.reachedWithout_of_relaxedAdds ht htaken ha hf

/-- The initial facts are reached without the actions that may add some facts. -/
theorem Survey.reached_avoiding_of_init (ht : s.task.InRange) (fs : List Nat) (hf : f ∈ s.task.init) :
    (s.layersAvoiding fs).reached f = true := by
  have hreached : s.task.ReachedWithout (s.adderMask fs) f := Task.reachedWithout_of_init ht hf
  exact hreached

/-- What an action adds that may add none of some facts is none of them. -/
theorem not_mem_of_not_adder {i : Nat} {a : Action κ} (ha : t.actions[i]? = some a) (hi : i ∉ t.adders fs)
    {reached : Nat → Bool} (hf : f ∈ a.relaxedAdds reached) : f ∉ fs := by
  intro hmem
  exact hi ((mem_adders ha).2 ⟨f, hmem, Task.mayAdd_of_mem_relaxedAdds hf⟩)

/-- Facts that do not hold initially are out of reach without the actions that may add them. -/
theorem Survey.not_reached_self (hinitial : ∀ f ∈ fs, s.task.isInitial f = false) (hf : f ∈ fs) :
    (s.layersAvoiding fs).reached f = false := by
  rw [Bool.eq_false_iff]
  intro hreached
  have hnot : f ∉ fs := by
    refine s.reached_avoiding_least (P := fun g => g ∉ fs) (fun g hg hmem => ?_) ?_ hreached
    · have hinit : s.task.isInitial g = true := List.contains_iff_mem.2 hg
      rw [hinitial g hmem] at hinit
      cases hinit
    · intro i a ha hi reached _ g hg
      exact not_mem_of_not_adder ha hi hg
  exact hnot hf

/-- What is reached without some actions is reached. -/
theorem reached_of_reached_avoiding (ht : t.InRange) (hf : ((Survey.of t).layersAvoiding fs).reached f = true) :
    (Survey.of t).layers.reached f = true := by
  refine (Survey.of t).reached_avoiding_least (P := t.Reached) (fun g hg => Task.reached_of_init ht hg) ?_ hf
  intro i a ha _ reached hreached g hg
  refine Task.reached_of_relaxedAdds ht (Array.mem_of_getElem? ha) ?_
  exact Task.relaxedAdds_mono hreached hg

/-! ## Labels -/

/-- What an action adds in the relaxation comes with the labels of reached facts. -/
theorem Labels.exists_cause_of_relaxedAdds {labels : Labels} {a : Action κ} {reached : Nat → Bool}
    (hlabels : ∀ h, reached h = true → ∃ x, labels.of h = some x ∧ x.contains g = false)
    (hf : f ∈ a.relaxedAdds reached) : ∃ cause, (cause, f) ∈ labels.causes a ∧ cause.contains g = false := by
  have hunion (fs : List Nat) (hfs : fs.all reached = true) :
      ∃ x, labels.unionOf fs = some x ∧ x.contains g = false := by
    have hall := List.all_eq_true.1 hfs
    obtain ⟨x, hx⟩ := exists_unionOf fun h hh => (hlabels h (hall h hh)).imp fun _ hy => hy.1
    refine ⟨x, hx, Bool.eq_false_iff.2 fun hg => ?_⟩
    obtain ⟨h, hh, y, hy, hyg⟩ := exists_of_contains_unionOf hx hg
    obtain ⟨z, hz, hzg⟩ := hlabels h (hall h hh)
    obtain rfl := Option.some.inj (hy.symm.trans hz)
    rw [hyg] at hzg
    cases hzg
  unfold Action.relaxedAdds at hf
  split at hf
  case isFalse => cases hf
  rename_i hneeds
  obtain ⟨x, hx, hxg⟩ := hunion a.needs hneeds
  rw [causes, hx]
  rcases List.mem_append.1 hf with hf | hf
  · exact ⟨x, List.mem_append_left _ (List.mem_map_of_mem hf), hxg⟩
  · obtain ⟨e, he, hf⟩ := List.mem_flatMap.1 hf
    obtain ⟨he, hcondition⟩ := List.mem_filter.1 he
    obtain ⟨y, hy, hyg⟩ := hunion e.needs hcondition
    refine ⟨x.union y, List.mem_append_right _ (List.mem_flatMap.2 ⟨e, he, ?_⟩), ?_⟩
    · rw [hy]
      exact List.mem_map_of_mem hf
    · rw [FactSet.contains_union, hxg, hyg, Bool.or_false]

/-- What is reached without the actions that may add a fact has a label without the fact. -/
theorem Labels.exists_label_of_reached_avoiding (ht : t.InRange) (hg : t.isInitial g = false)
    (hf : ((Survey.of t).layersAvoiding [g]).reached f = true) :
    ∃ x, (Labels.final t).of f = some x ∧ x.contains g = false := by
  have hformed := (sweep_final ht).1
  refine (Survey.of t).reached_avoiding_least
    (P := fun f => ∃ x, (Labels.final t).of f = some x ∧ x.contains g = false) ?_ ?_ hf
  · intro h hh
    refine ⟨_, hformed.init h hh, ?_⟩
    rw [FactSet.contains_singleton, decide_eq_false_iff_not]
    rintro rfl
    have hinit : t.isInitial h = true := List.contains_iff_mem.2 hh
    rw [hg] at hinit
    cases hinit
  · intro i a ha hi reached hlabels f hf
    obtain ⟨cause, hcause, hcg⟩ := exists_cause_of_relaxedAdds hlabels hf
    refine ⟨_, stable_final ht (Array.mem_of_getElem? ha) _ hcause, ?_⟩
    have hne : f ≠ g := by simpa using not_mem_of_not_adder ha hi hf
    rw [contains_narrowed hformed, FactSet.contains_insert, hcg, decide_eq_false hne, Bool.or_false,
      Bool.and_false]

/-- The facts that labels find are necessary, those that hold initially aside. -/
theorem isNecessary_of_mem_labelFacts (ht : t.InRange) (hf : f ∈ (Survey.of t).labelFacts)
    (hinitial : t.isInitial f = false) : (Survey.of t).isNecessary f = true := by
  obtain ⟨-, hkept⟩ := List.mem_filter.1 hf
  obtain ⟨goal, hmem, hlabel⟩ := List.any_eq_true.1 (Bool.and_eq_true_iff.1 hkept).2
  rw [Survey.isNecessary, Bool.not_eq_true', Bool.eq_false_iff]
  intro hgoals
  have hreached : ((Survey.of t).layersAvoiding [f]).reached goal = true := List.all_eq_true.1 hgoals goal hmem
  obtain ⟨x, hx, hxf⟩ := Labels.exists_label_of_reached_avoiding ht hinitial hreached
  have hlabel : ((Labels.final t).of goal).any (·.contains f) = true := hlabel
  rw [hx, Option.any_some, hxf] at hlabel
  cases hlabel

/-! ## Backchaining -/

/-- If all first achievers of a candidate need one of some facts, and the goal is out of reach without the
actions that may add the candidate, then it is so without those that may add the facts. -/
theorem Requires.not_goalReached {c : Candidate} (hrequires : Requires s c fs) (ht : s.task.InRange)
    (hinitial : ∀ f ∈ fs, s.task.isInitial f = false) (hc : s.goalReached (s.layersAvoiding c.facts) = false) :
    s.goalReached (s.layersAvoiding fs) = false := by
  rw [Bool.eq_false_iff] at hc ⊢
  intro hgoals
  refine hc (List.all_eq_true.2 fun goal hgoal => ?_)
  have hgoal : (s.layersAvoiding fs).reached goal = true := List.all_eq_true.1 hgoals goal hgoal
  let Both (f : Nat) : Prop :=
    (s.layersAvoiding fs).reached f = true ∧ (s.layersAvoiding c.facts).reached f = true
  have hboth : Both goal := by
    refine s.reached_avoiding_least (P := Both) (fun f hf => ?_) ?_ hgoal
    · exact ⟨s.reached_avoiding_of_init ht fs hf, s.reached_avoiding_of_init ht c.facts hf⟩
    intro i a ha hi reached hreached f hf
    have hneeds := Task.needs_of_mem_relaxedAdds hf
    -- The action adds nothing of the candidate: as a first achiever it would need one of the facts.
    have hi' : i ∉ s.task.adders c.facts := by
      intro hadder
      have hneedsOf : s.needs i = a.needs := by rw [Survey.needs, ha]; rfl
      have hfirst : i ∈ s.firstAchievers c.facts := by
        refine List.mem_filter.2 ⟨hadder, List.all_eq_true.2 fun g hg => ?_⟩
        exact (hreached g (hneeds g (hneedsOf ▸ hg))).2
      obtain ⟨g, hg, hneed⟩ := hrequires i hfirst
      have hcontra := (hreached g (hneeds g (hneedsOf ▸ hneed))).1
      rw [s.not_reached_self hinitial hg] at hcontra
      cases hcontra
    exact ⟨s.reached_avoiding_of_relaxedAdds ht ha hi (Task.relaxedAdds_mono (fun g hg => (hreached g hg).1) hf),
      s.reached_avoiding_of_relaxedAdds ht ha hi' (Task.relaxedAdds_mono (fun g hg => (hreached g hg).2) hf)⟩
  exact hboth.2

/-- The candidate is a single fact, which is a goal if it holds initially, or a choice of facts none of which
does. -/
def Candidate.Kept (s : Survey κ) (c : Candidate) : Prop :=
  (∃ f, c = ⟨[f], .fact⟩ ∧ (s.isGoal f = true ∨ s.keeps f = true)) ∨
    c.kind = .disjunctive ∧ ∀ f ∈ c.facts, s.task.isInitial f = false

/-- The candidate is kept, and unless it holds initially, the goal is out of reach without the actions that
may add its facts. -/
structure Candidate.Needed (s : Survey κ) (c : Candidate) : Prop where
  kept : c.Kept s
  necessary : (∀ f ∈ c.facts, s.task.isInitial f = false) → s.goalReached (s.layersAvoiding c.facts) = false

section Expand

variable {Q : Candidate → Prop} {d : Draft} {current : Nat}

theorem forall_candidates_addShared {shared : List Nat} (hd : ∀ c ∈ d.candidates, Q c)
    (hshared : ∀ f ∈ shared, s.task.isInitial f = false → Q ⟨[f], .fact⟩) :
    ∀ c ∈ (s.addShared current d shared).1.candidates, Q c := by
  induction shared generalizing d with
  | nil => exact hd
  | cons f shared ih =>
    obtain ⟨hf, hshared⟩ := List.forall_mem_cons.1 hshared
    unfold Survey.addShared
    split
    · exact ih hd hshared
    · rename_i hinitial
      refine ih (fun c hc => ?_) hshared
      rw [Survey.candidates_order] at hc
      rcases Draft.mem_candidates_add hc with hc | rfl
      · exact hd c hc
      · rw [ascending_singleton]
        exact hf (by simpa using hinitial)

theorem forall_candidates_addChoices {choices : List (List Nat)} (hd : ∀ c ∈ d.candidates, Q c)
    (hchoices : ∀ facts ∈ choices, (∀ f ∈ ascending facts, s.task.isInitial f = false) →
      Q ⟨ascending facts, .disjunctive⟩) :
    ∀ c ∈ (s.addChoices current d choices).candidates, Q c := by
  refine List.foldlRecOn (motive := fun d : Draft => ∀ c ∈ d.candidates, Q c) _ _ hd ?_
  intro d hd facts hfacts
  dsimp only
  split
  case isTrue => exact hd
  rename_i hnone
  intro c hc
  rw [Survey.candidates_order] at hc
  rcases Draft.mem_candidates_add hc with hc | rfl
  · exact hd c hc
  · exact hchoices facts hfacts (not_isInitial_of_choice hnone)

variable
  (hshared : ∀ c, Q c → ¬ c.facts.all s.task.isInitial = true →
    ∀ f, s.task.isInitial f = false → (∃ i, i ∈ s.firstAchievers c.facts ∧ f ∈ s.needs i) →
      Requires s c [f] → Q ⟨[f], .fact⟩)
  (hchoice : ∀ c, Q c → ¬ c.facts.all s.task.isInitial = true →
    ∀ fs, (∀ f ∈ fs, s.task.isInitial f = false) → Requires s c fs → Q ⟨fs, .disjunctive⟩)
include hshared hchoice

/-- What the first achievers of a candidate share or choose from is all that a step of backchaining adds. -/
theorem forall_candidates_expand (hd : ∀ c ∈ d.candidates, Q c) (current : Nat) :
    ∀ c ∈ (s.expand d current).1.candidates, Q c := by
  unfold Survey.expand
  dsimp only
  split
  case isTrue => exact hd
  rename_i hnotInitial
  split
  case isTrue => exact hd
  rename_i hachievers
  obtain ⟨c, hc, hfacts⟩ := Draft.exists_of_facts_ne_nil (d := d) fun hnil => hnotInitial (by rw [hnil]; rfl)
  rw [hfacts] at hnotInitial hachievers ⊢
  have hQ : Q c := hd c (Array.mem_of_getElem? hc)
  obtain ⟨i, hi⟩ := List.exists_mem_of_ne_nil (s.firstAchievers c.facts) (by simpa using hachievers)
  refine forall_candidates_addChoices (forall_candidates_addShared hd fun f hf hinitial => ?_) ?_
  · refine hshared c hQ hnotInitial f hinitial ⟨i, hi, mem_needs_of_mem_sharedNeeds hf hi⟩ fun j hj => ?_
    exact ⟨f, List.mem_singleton_self f, mem_needs_of_mem_sharedNeeds hf hj⟩
  · intro facts hfacts hinitial
    refine hchoice c hQ hnotInitial _ hinitial fun j hj => ?_
    obtain ⟨f, hf, hneed⟩ := exists_mem_needs_of_mem_choices hfacts hj
    exact ⟨f, mem_ascending.2 hf, hneed⟩

/-- What holds of the goals, and passes from candidates to what their first achievers share or choose from,
holds of all candidates that backchaining finds. -/
theorem forall_candidates_backchained (hgoal : ∀ g ∈ s.task.goalNeeds, Q ⟨[g], .fact⟩) :
    ∀ c ∈ s.backchained.candidates, Q c := by
  refine s.backchainFrom_keeps (P := fun d => ∀ c ∈ d.candidates, Q c)
    (fun d current hd => forall_candidates_expand hshared hchoice hd current) ?_ _ _
  refine List.foldlRecOn (motive := fun p : Draft × List Nat => ∀ c ∈ p.1.candidates, Q c) _ _ (by simp) ?_
  intro p hp g hg c hc
  rcases Draft.mem_candidates_add hc with hc | rfl
  · exact hp c hc
  · rw [ascending_singleton]
    exact hgoal g hg

end Expand

/-- Backchaining finds needed candidates. -/
theorem needed_of_mem_backchained (ht : t.InRange) {c : Candidate} (hc : c ∈ (Survey.of t).backchained.candidates) :
    c.Needed (Survey.of t) := by
  have hnecessary {c : Candidate} (hc : c.Needed (Survey.of t)) (hnot : ¬ c.facts.all t.isInitial = true) :
      (Survey.of t).goalReached ((Survey.of t).layersAvoiding c.facts) = false := by
    refine hc.necessary fun f hf => ?_
    rcases hc.kept with ⟨g, rfl, -⟩ | ⟨-, hinitial⟩
    · obtain rfl := List.mem_singleton.1 hf
      have hinitial : t.isInitial f = false := by simpa using hnot
      exact hinitial
    · exact hinitial f hf
  refine forall_candidates_backchained (Q := Candidate.Needed (Survey.of t)) ?shared ?choice ?goal c hc
  case shared =>
    rintro c hc hnot f hinitial ⟨i, hi, hneed⟩ hrequires
    have hreached : (Survey.of t).layers.reached f = true :=
      reached_of_reached_avoiding ht (List.all_eq_true.1 (List.mem_filter.1 hi).2 f hneed)
    have hkeeps : (Survey.of t).keeps f = true := by
      rw [Survey.keeps, hreached, hinitial]
      rfl
    exact ⟨.inl ⟨f, rfl, .inr hkeeps⟩, fun hnone => hrequires.not_goalReached ht hnone (hnecessary hc hnot)⟩
  case choice =>
    intro c hc hnot fs hinitial hrequires
    exact ⟨.inr ⟨rfl, hinitial⟩, fun hnone => hrequires.not_goalReached ht hnone (hnecessary hc hnot)⟩
  case goal =>
    intro g hg
    refine ⟨.inl ⟨g, rfl, .inl (List.contains_iff_mem.2 hg)⟩, fun hnone => ?_⟩
    rw [Bool.eq_false_iff]
    intro hgoals
    have hreached := List.all_eq_true.1 hgoals g hg
    rw [Survey.not_reached_self hnone (List.mem_singleton_self g)] at hreached
    cases hreached

/-! ## Exclusion -/

theorem mem_foldl_including {c : Candidate} {d : Draft} (hc : c ∈ d.candidates) (fs : List Nat) :
    c ∈ (fs.foldl (fun (d : Draft) f => d.including [f] .fact) d).candidates := by
  induction fs generalizing d with
  | nil => exact hc
  | cons f fs ih =>
    obtain ⟨i, hi⟩ := Array.getElem?_of_mem hc
    exact ih (Array.mem_of_getElem? (Draft.getElem?_add hi [f] .fact))

theorem exists_mem_foldl_including (hf : f ∈ fs) (d : Draft) :
    ∃ c ∈ (fs.foldl (fun (d : Draft) f => d.including [f] .fact) d).candidates, c.facts = [f] := by
  induction fs generalizing d with
  | nil => cases hf
  | cons g fs ih =>
    rcases List.mem_cons.1 hf with rfl | hf
    · obtain ⟨c, hc, hfacts⟩ := Draft.exists_getElem?_add d [f] .fact
      rw [ascending_singleton] at hfacts
      exact ⟨c, mem_foldl_including (Array.mem_of_getElem? hc) fs, hfacts⟩
    · exact ih hf _

theorem candidates_orderByExclusion (s : Survey κ) (d : Draft) (first : Nat) :
    (s.orderByExclusion d first).candidates = d.candidates := by
  unfold Survey.orderByExclusion
  dsimp only
  split
  · rfl
  · refine List.foldlRecOn (motive := fun d' : Draft => d'.candidates = d.candidates) _ _ rfl ?_
    intro d' hd' second _
    split
    · rw [Survey.candidates_order, hd']
    · exact hd'

/-- Exclusion finds every necessary fact. -/
theorem mem_candidates_exhaustive : ⟨[f], .fact⟩ ∈ s.exhaustive.candidates ↔ f ∈ s.necessaryFacts := by
  constructor
  · intro hc
    obtain ⟨g, hg, heq⟩ := (exhaustive_spec s).1 _ hc
    obtain rfl : f = g := by simpa using heq
    exact hg
  · intro hf
    obtain ⟨c, hc, hfacts⟩ := exists_mem_foldl_including hf {}
    have hmem : c ∈ s.exhaustive.candidates := by
      refine List.foldlRecOn (motive := fun d : Draft => c ∈ d.candidates) _ _ hc fun d hd first _ => ?_
      rw [candidates_orderByExclusion]
      exact hd
    obtain ⟨g, -, rfl⟩ := (exhaustive_spec s).1 c hmem
    obtain rfl : g = f := by simpa using hfacts
    exact hmem

/-! ## The methods -/

/-- Whatever the method, the candidates are kept. -/
theorem kept_of_mem_found (ht : t.InRange) {category : Category} {c : Candidate}
    (hc : c ∈ ((Survey.of t).found category).candidates) : c.Kept (Survey.of t) := by
  cases category with
  | rhw => exact (needed_of_mem_backchained ht hc).kept
  | zg =>
    obtain ⟨f, hf, rfl⟩ := mem_candidates_labelled.1 hc
    exact .inl ⟨f, rfl, .inr (Bool.and_eq_true_iff.1 (List.mem_filter.1 hf).2).1⟩
  | exhaust =>
    obtain ⟨f, hf, rfl⟩ := (exhaustive_spec (Survey.of t)).1 c hc
    refine .inl ⟨f, rfl, (List.mem_append.1 hf).imp List.contains_iff_mem.2 fun hf => ?_⟩
    exact (Bool.and_eq_true_iff.1 (Bool.and_eq_true_iff.1 (List.mem_filter.1 hf).2).1).1

/-- A goal, or a fact that is kept and necessary, is found by exclusion. -/
theorem mem_necessaryFacts (hlt : f < t.facts.size)
    (hkept : (Survey.of t).isGoal f = true ∨ (Survey.of t).keeps f = true)
    (hnecessary : t.isInitial f = false → (Survey.of t).isNecessary f = true) :
    f ∈ (Survey.of t).necessaryFacts := by
  by_cases hgoal : (Survey.of t).isGoal f = true
  · exact List.mem_append_left _ (List.contains_iff_mem.1 hgoal)
  · have hkeeps := hkept.resolve_left hgoal
    have hinitial : t.isInitial f = false := by
      have hcases := (Bool.and_eq_true_iff.1 hkeeps).2
      rw [Bool.eq_false_iff.2 hgoal, Bool.or_false] at hcases
      have hnot : (Survey.of t).task.isInitial f = false := by simpa using hcases
      exact hnot
    refine List.mem_append_right _ (List.mem_filter.2 ⟨List.mem_range.2 hlt, ?_⟩)
    rw [hkeeps, hnecessary hinitial, Bool.eq_false_iff.2 hgoal]
    rfl

/-- Whatever the method, the single facts that it finds are found by exclusion. -/
theorem mem_exhaustive_of_mem_found (ht : t.InRange) (hneeds : t.NeedsInRange) {category : Category}
    {kind : Kind} (hc : ⟨[f], kind⟩ ∈ ((Survey.of t).found category).candidates) (hkind : kind = .fact) :
    ⟨[f], .fact⟩ ∈ (Survey.of t).exhaustive.candidates := by
  subst hkind
  have hlt : f < t.facts.size := lt_size_of_mem_found hneeds hc f (List.mem_singleton_self f)
  have hkept : (Survey.of t).isGoal f = true ∨ (Survey.of t).keeps f = true := by
    rcases kept_of_mem_found ht hc with ⟨g, heq, hkept⟩ | ⟨hkind, -⟩
    · obtain rfl : f = g := by simpa using heq
      exact hkept
    · cases hkind
  cases category with
  | exhaust => exact hc
  | zg =>
    obtain ⟨g, hg, heq⟩ := mem_candidates_labelled.1 hc
    obtain rfl : g = f := by simpa using heq
    exact mem_candidates_exhaustive.2 (mem_necessaryFacts hlt hkept (isNecessary_of_mem_labelFacts ht hg))
  | rhw =>
    refine mem_candidates_exhaustive.2 (mem_necessaryFacts hlt hkept fun hinitial => ?_)
    have hunreached := (needed_of_mem_backchained ht hc).necessary (List.forall_mem_singleton.2 hinitial)
    rw [Survey.isNecessary, hunreached]
    rfl

/-- **The methods are consistent.** A landmark of kind fact is a single fact. By whichever method it is found,
it is found by exclusion too, under a number of its own. A landmark that is met initially is of this kind and
is a goal, so no choice of facts is met initially. -/
theorem extract_consistent [Number.Scale κ] {domain : Planning.Domain} {problem : Planning.Problem}
    (hground : Task.ground domain problem = .ok t) (category : Category) :
    ∀ l ∈ (extract t category).landmarks,
      (l.kind = .fact → (∃ name, l.facts = [name]) ∧ ∃ id, { l with id } ∈ (extract t .exhaust).landmarks) ∧
      (Met t [t.initialState] l → l.kind = .fact ∧ ∃ g ∈ t.goalNeeds, l.facts = [t.facts.name g]) := by
  have ht := Task.inRange_of_ground hground
  have hneeds := Task.needsInRange_of_ground hground
  intro l hl
  obtain ⟨hreached, id, c, hc, rfl⟩ := exists_of_mem_landmarks_extract hl
  have hrange := lt_size_of_mem_found hneeds hc
  constructor
  · intro hkind
    rcases kept_of_mem_found ht hc with ⟨f, rfl, -⟩ | ⟨hdisjunctive, -⟩
    · have hmem := mem_exhaustive_of_mem_found ht hneeds hc rfl
      obtain ⟨place, hplace⟩ := Array.getElem?_of_mem hmem
      have hfind := find?_finish (s := Survey.of t) hplace
      refine ⟨⟨_, rfl⟩, (Survey.of t).newId (Survey.of t).exhaustive place, ?_⟩
      rw [extract_of_goalReached hreached]
      exact List.mem_of_find?_eq_some hfind
    · cases hkind.symm.trans hdisjunctive
  · intro hmet
    obtain ⟨f, hf, x, hx, hholds⟩ := (met_landmark (s := Survey.of t) hrange).1 hmet
    obtain rfl := List.mem_singleton.1 hx
    have hinitial : t.isInitial f = true := List.contains_iff_mem.2 (Task.mem_init_of_contains hholds)
    rcases kept_of_mem_found ht hc with ⟨g, rfl, hkept⟩ | ⟨-, hnone⟩
    · obtain rfl := List.mem_singleton.1 hf
      have hgoal : (Survey.of t).isGoal f = true := by
        rcases hkept with hgoal | hkeeps
        · exact hgoal
        · have hcases := (Bool.and_eq_true_iff.1 hkeeps).2
          have hinitial : (Survey.of t).task.isInitial f = true := hinitial
          rwa [hinitial, Bool.not_true, Bool.false_or] at hcases
      exact ⟨rfl, f, List.contains_iff_mem.1 hgoal, rfl⟩
    · have hfalse : t.isInitial f = false := hnone f hf
      rw [hinitial] at hfalse
      cases hfalse

/-- Backchaining finds that a message is drafted. -/
theorem exists_found_outbox [Number.Scale κ] : ∃ t : Ground.Task κ, Task.ground outbox message = .ok t ∧
    ∃ l ∈ (extract t .rhw).landmarks, l.kind = .fact ∧ l.facts = ["(drafted)"] := by
  obtain ⟨⟨names, numbers, hnumbers⟩, hnames, hground, -⟩ := exists_plan_outbox (κ := κ)
  subst hnames
  have hchained : (extract (outboxTask (κ := κ) ⟨_, numbers, hnumbers⟩) .rhw).landmarks.map
      (fun l => (l.kind, l.facts)) = [(.fact, ["(drafted)"]), (.fact, ["(sent)"])] := by cbv
  obtain ⟨l, hl, heq⟩ := List.mem_map.1 (show (Kind.fact, ["(drafted)"]) ∈ _ by rw [hchained]; simp)
  exact ⟨_, hground, l, hl, Prod.mk.inj heq⟩

theorem extract_consistent_outbox : ∃ t : Ground.Task Number.Double, Task.ground outbox message = .ok t ∧
    ∃ l ∈ (extract t .rhw).landmarks, l.kind = .fact ∧ l.facts = ["(drafted)"] ∧
      (∃ id, { l with id } ∈ (extract t .exhaust).landmarks) ∧
      (Met t [t.initialState] l → ∃ g ∈ t.goalNeeds, l.facts = [t.facts.name g]) := by
  obtain ⟨t, hground, l, hl, hkind, hfacts⟩ := exists_found_outbox (κ := Number.Double)
  obtain ⟨hfound, hgoal⟩ := extract_consistent hground .rhw l hl
  exact ⟨t, hground, l, hl, hkind, hfacts, (hfound hkind).2, fun hmet => (hgoal hmet).2⟩

end Waymark.Landmark
