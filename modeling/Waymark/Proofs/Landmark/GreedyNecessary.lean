import Mathlib.Tactic
import Waymark.Number.Double
import Waymark.Proofs.Ground.Propositional
import Waymark.Proofs.Landmark.Backchain

/-!
# Orderings by backchaining

Every first achiever of the second landmark of an ordering needs a fact of the first one. So the first one
holds right before the first action of a run that may add a fact of the second one. That action makes the
second one true, or withholds it, in which case a later action does so and may need nothing of the first.

* `ByAchievers`: the ordering between candidates;
* `Draft.Coherent`: the invariant of drafts, which `Coherent.add_order` keeps;
* `coherent_backchained`: what backchaining yields;
* `extract_rhw_holds_before`: the first landmark holds before the second one.
-/

namespace Waymark.Landmark

open Ground

variable {κ : Type} {s : Survey κ} {d : Draft} {c : Candidate} {fs : List Nat}

/-! ## Drafts -/

/-- A candidate of facts of the task, either all or none of which hold initially. -/
structure Candidate.Uniform (s : Survey κ) (c : Candidate) : Prop where
  inRange : ∀ f ∈ c.facts, f < s.task.facts.size
  uniform : c.facts.all s.task.isInitial = true ∨ ∀ f ∈ c.facts, s.task.isInitial f = false

/-- Every first achiever of the candidate needs one of the facts. -/
def Requires (s : Survey κ) (c : Candidate) (fs : List Nat) : Prop :=
  ∀ i ∈ s.firstAchievers c.facts, ∃ f ∈ fs, f ∈ s.needs i

/-- The ordering is between candidates such that every first achiever of the second needs a fact of the
first. -/
def ByAchievers (s : Survey κ) (candidates : Array Candidate) (o : Order) : Prop :=
  o.kind = .greedyNecessary ∧ ∃ c c', candidates[o.first]? = some c ∧ candidates[o.second]? = some c' ∧
    (∀ f ∈ c'.facts, s.task.isInitial f = false) ∧ Requires s c' c.facts

theorem ByAchievers.add {o : Order} (h : ByAchievers s d.candidates o) (fs : List Nat) (kind : Kind) :
    ByAchievers s (d.add fs kind).1.candidates o := by
  obtain ⟨hkind, c, c', hc, hc', hrequires⟩ := h
  exact ⟨hkind, c, c', Draft.getElem?_add hc .., Draft.getElem?_add hc' .., hrequires⟩

/-- The draft is of uniform candidates, with orderings by their first achievers. -/
structure Draft.Coherent (s : Survey κ) (d : Draft) : Prop where
  uniform : ∀ c ∈ d.candidates, c.Uniform s
  orders : ∀ o ∈ d.orders, ByAchievers s d.candidates o

theorem Draft.Coherent.add {kind : Kind} (h : d.Coherent s)
    (hnew : Candidate.Uniform s ⟨ascending fs, kind⟩) : (d.add fs kind).1.Coherent s where
  uniform c hc := by
    rcases Draft.mem_candidates_add hc with hc | rfl
    · exact h.uniform c hc
    · exact hnew
  orders o ho := by
    rw [Draft.orders_add] at ho
    exact (h.orders o ho).add fs kind

/-- A single fact of the task is uniform. -/
theorem uniform_fact {f : Nat} {kind : Kind} (hf : f < s.task.facts.size) :
    Candidate.Uniform s ⟨ascending [f], kind⟩ := by
  rw [ascending_singleton]
  exact ⟨by simpa using hf, uniform_singleton s f⟩

/-! ## Steps of backchaining -/

section Step

variable {current : Nat} (hinitial : ∀ f ∈ c.facts, s.task.isInitial f = false)
include hinitial

/-- **The step of backchaining**: what all first achievers of a candidate require is added before it. The
candidate keeps its place. -/
theorem Draft.Coherent.add_order {kind : Kind} (h : d.Coherent s) (hc : d.candidates[current]? = some c)
    (hnew : Candidate.Uniform s ⟨ascending fs, kind⟩) (hrequires : Requires s c fs) :
    let added := d.add fs kind
    let next := s.order added.1 added.2.1 current .greedyNecessary
    next.Coherent s ∧ next.candidates[current]? = some c := by
  dsimp only
  have hadded := h.add hnew
  have hkept := Draft.getElem?_add hc fs kind
  obtain ⟨c', hc', hfacts⟩ := Draft.exists_getElem?_add d fs kind
  refine ⟨⟨fun x hx => ?_, fun o ho => ?_⟩, ?_⟩
  · rw [Survey.candidates_order] at hx
    exact hadded.uniform x hx
  · rw [Survey.candidates_order]
    rcases Survey.mem_orders_order ho with ho | ⟨-, -, rfl⟩
    · exact hadded.orders o ho
    refine ⟨rfl, c', c, hc', hkept, hinitial, fun i hi => ?_⟩
    obtain ⟨f, hf, hneed⟩ := hrequires i hi
    exact ⟨f, hfacts ▸ mem_ascending.2 hf, hneed⟩
  · rw [Survey.candidates_order]
    exact hkept

theorem coherent_addShared {shared : List Nat} (h : d.Coherent s) (hc : d.candidates[current]? = some c)
    (hrange : ∀ f ∈ shared, f < s.task.facts.size) (hshared : ∀ f ∈ shared, Requires s c [f]) :
    (s.addShared current d shared).1.Coherent s ∧
      (s.addShared current d shared).1.candidates[current]? = some c := by
  induction shared generalizing d with
  | nil => exact ⟨h, hc⟩
  | cons f shared ih =>
    obtain ⟨hf, hrange⟩ := List.forall_mem_cons.1 hrange
    obtain ⟨hrequires, hshared⟩ := List.forall_mem_cons.1 hshared
    unfold Survey.addShared
    split
    · exact ih h hc hrange hshared
    · have hnew : Candidate.Uniform s ⟨ascending [f], .fact⟩ := uniform_fact hf
      obtain ⟨hnext, hkept⟩ := h.add_order hinitial hc hnew hrequires
      exact ih hnext hkept hrange hshared

theorem coherent_addChoices {choices : List (List Nat)} (h : d.Coherent s) (hc : d.candidates[current]? = some c)
    (hrange : ∀ facts ∈ choices, ∀ f ∈ facts, f < s.task.facts.size)
    (hchoices : ∀ facts ∈ choices, Requires s c facts) : (s.addChoices current d choices).Coherent s := by
  let Good (d : Draft) : Prop := d.Coherent s ∧ d.candidates[current]? = some c
  have hend : Good (s.addChoices current d choices) := by
    refine List.foldlRecOn (motive := Good) _ _ ⟨h, hc⟩ fun d hd facts hfacts => ?_
    dsimp only
    split
    case isTrue => exact hd
    rename_i hnone
    have hnew : ∀ f ∈ ascending facts, f < s.task.facts.size := fun f hf =>
      hrange facts hfacts f (mem_ascending.1 hf)
    exact hd.1.add_order hinitial hd.2 ⟨hnew, .inr (not_isInitial_of_choice hnone)⟩ (hchoices facts hfacts)
  exact hend.1

end Step

section Range

variable (ht : s.task.NeedsInRange)
include ht

theorem lt_size_of_mem_needs {f i : Nat} (hf : f ∈ s.needs i) : f < s.task.facts.size := by
  rw [Survey.needs] at hf
  cases ha : s.task.actions[i]? with
  | none =>
    rw [ha] at hf
    cases hf
  | some a =>
    rw [ha] at hf
    exact ht.actions a (Array.mem_of_getElem? ha) f hf

theorem coherent_expand (h : d.Coherent s) (current : Nat) : (s.expand d current).1.Coherent s := by
  unfold Survey.expand
  dsimp only
  split
  case isTrue => exact h
  rename_i hnotInitial
  split
  case isTrue => exact h
  rename_i hachievers
  obtain ⟨c, hc, hfacts⟩ := Draft.exists_of_facts_ne_nil (d := d) fun hnil => hnotInitial (by rw [hnil]; rfl)
  rw [hfacts] at hnotInitial hachievers ⊢
  have hinitial := (h.uniform c (Array.mem_of_getElem? hc)).uniform.resolve_left hnotInitial
  -- What is shared or chosen is something that the actions need, of which there are some.
  obtain ⟨i, hi⟩ := List.exists_mem_of_ne_nil (s.firstAchievers c.facts) (by simpa using hachievers)
  obtain ⟨hshared, hkept⟩ := coherent_addShared hinitial h hc
    (fun f hf => lt_size_of_mem_needs ht (mem_needs_of_mem_sharedNeeds hf hi))
    fun f hf i hi => ⟨f, List.mem_singleton_self f, mem_needs_of_mem_sharedNeeds hf hi⟩
  refine coherent_addChoices hinitial hshared hkept (fun facts hfacts f hf => ?_) fun facts hfacts i hi => ?_
  · obtain ⟨i, hneed⟩ := exists_needs_of_mem_choices hfacts hf
    exact lt_size_of_mem_needs ht hneed
  · exact exists_mem_needs_of_mem_choices hfacts hi

/-- **Backchaining yields a coherent draft.** -/
theorem coherent_backchained : s.backchained.Coherent s := by
  refine Survey.backchainFrom_keeps (P := Draft.Coherent s) (fun _ current hd => coherent_expand ht hd current) ?_ _ _
  refine List.foldlRecOn (motive := fun p : Draft × List Nat => p.1.Coherent s) _ _ ?_ fun p hp g hg => ?_
  · exact ⟨by simp, by simp⟩
  · exact hp.add (uniform_fact (ht.goal g hg))

end Range

/-! ## Runs -/

/-- **Orderings by backchaining on runs.** Before the second landmark of an ordering is met for the first time,
the first one is met: right before, or right before an earlier step that withheld the second one. In
particular it is met right before if no effect under a condition adds the second one. -/
theorem extract_rhw_holds_before [Number.Scale κ] {domain : Planning.Domain} {problem : Planning.Problem}
    {t : Ground.Task κ} (hground : Task.ground domain problem = .ok t) {is : List Nat} {ss : List State}
    (hvisited : t.visited t.initialState is = some ss) :
    ∀ o ∈ (extract t .rhw).orders, o.kind = .greedyNecessary ∧ ∃ first second,
      (extract t .rhw).find? o.first = some first ∧ (extract t .rhw).find? o.second = some second ∧
      ∀ k, FirstMet t ss second k → ∃ before, k = before + 1 ∧
        (∃ j ≤ before, MetAt t ss first j ∧ (j = before ∨ Withheld t is ss second j)) ∧
        (AddedOutright t second → MetAt t ss first before) := by
  have ht := Task.inRange_of_ground hground
  unfold extract
  dsimp only
  split
  case isFalse => exact nofun
  intro o ho
  obtain ⟨o', ho', rfl⟩ := exists_of_mem_orders_finish ho
  have hcoherent := coherent_backchained (s := Survey.of t) (Task.needsInRange_of_ground hground)
  obtain ⟨hkind, c, c', hc, hc', hinitial, hrequires⟩ := hcoherent.orders o' ho'
  have hrange := (hcoherent.uniform c (Array.mem_of_getElem? hc)).inRange
  have hrange' := (hcoherent.uniform c' (Array.mem_of_getElem? hc')).inRange
  refine ⟨hkind, _, _, find?_finish hc, find?_finish hc', fun k hk => ?_⟩
  cases k with
  | zero => exact absurd hk.met (not_metAt_zero hrange' hvisited hinitial)
  | succ before =>
    obtain ⟨-, -, -, j, hj, i, -, hi, ⟨x, hx, hneeds⟩, hlast⟩ := hk.exists_firstAchiever hrange' ht hvisited
    obtain ⟨f, hf, hneed⟩ := hrequires i hi
    have hmet : MetAt t ss ((Survey.of t).landmark ((Survey.of t).newId (Survey.of t).backchained o'.first) c) j :=
      ⟨x, hx, (met_landmark hrange).2 ⟨f, hf, x, List.mem_singleton_self x, hneeds f hneed⟩⟩
    refine ⟨before, rfl, ⟨j, hj, hmet, hlast⟩, fun houtright => ?_⟩
    obtain rfl := hlast.resolve_right (houtright.not_withheld ht hvisited)
    exact hmet

/-- A message can be sent from the queue when nothing is drafted any more, though being drafted is ordered
before being sent. -/
theorem exists_not_metAt_outbox [Number.Scale κ] : ∃ (t : Ground.Task κ) (is : List Nat) (ss : List State),
    Task.ground outbox message = .ok t ∧ t.IsPlanVia is ss ∧ ∃ o ∈ (extract t .rhw).orders,
      ∃ first second, (extract t .rhw).find? o.first = some first ∧ (extract t .rhw).find? o.second = some second ∧
        FirstMet t ss second 3 ∧ ¬ MetAt t ss first 2 := by
  obtain ⟨⟨names, numbers, hnumbers⟩, hnames, hground, hplan⟩ := exists_plan_outbox (κ := κ)
  subst hnames
  have hgraph : extract (outboxTask (κ := κ) ⟨_, numbers, hnumbers⟩) .rhw = {
      landmarks := [
        { id := 0, facts := ["(drafted)"], firstAchievers := ["(draft)"], possibleAchievers := ["(draft)"] },
        { id := 1, facts := ["(sent)"], firstAchievers := ["(submit)"], possibleAchievers := ["(submit)", "(flush)"]
          isGoal := true }]
      orders := [⟨0, 1, .greedyNecessary⟩] } := by cbv
  refine ⟨_, _, _, hground, hplan, ?_⟩
  rw [hgraph]
  refine ⟨⟨0, 1, .greedyNecessary⟩, by simp, _, _, rfl, rfl, ⟨⟨⟨#[6]⟩, rfl, ?_⟩, ?_⟩, ?_⟩
  · rw [met_iff_of_names (t := outboxTask ⟨_, numbers, hnumbers⟩) (f := 2) rfl rfl]
    decide
  · rw [met_iff_of_names (t := outboxTask ⟨_, numbers, hnumbers⟩) (f := 2) rfl rfl]
    decide
  · rintro ⟨x, hx, hmet⟩
    obtain rfl := Option.some.inj hx
    rw [met_iff_of_names (t := outboxTask ⟨_, numbers, hnumbers⟩) (f := 0) rfl rfl] at hmet
    revert hmet
    decide

theorem extract_rhw_holds_before_outbox :
    ∃ (t : Ground.Task Number.Double) (is : List Nat) (ss : List State),
      Task.ground outbox message = .ok t ∧ t.IsPlanVia is ss ∧ ∃ o ∈ (extract t .rhw).orders,
        ∃ first second, (extract t .rhw).find? o.first = some first ∧
          (extract t .rhw).find? o.second = some second ∧ FirstMet t ss second 3 ∧ ¬ MetAt t ss first 2 ∧
          ∃ j < 2, MetAt t ss first j ∧ Withheld t is ss second j := by
  obtain ⟨t, is, ss, hground, hplan, o, ho, first, second, hfirst, hsecond, hmet, hnot⟩ :=
    exists_not_metAt_outbox (κ := Number.Double)
  obtain ⟨-, first', second', hfirst', hsecond', hruns⟩ := extract_rhw_holds_before hground hplan.1 o ho
  obtain rfl := Option.some.inj (hfirst.symm.trans hfirst')
  obtain rfl := Option.some.inj (hsecond.symm.trans hsecond')
  obtain ⟨before, hbefore, ⟨j, hj, hmetAt, hlast⟩, -⟩ := hruns 3 hmet
  obtain rfl : before = 2 := (Nat.succ.inj hbefore).symm
  have hne : j ≠ 2 := fun heq => hnot (heq ▸ hmetAt)
  exact ⟨t, is, ss, hground, hplan, o, ho, first, second, hfirst, hsecond, hmet, hnot, j,
    Nat.lt_of_le_of_ne hj hne, hmetAt, hlast.resolve_left hne⟩

/-- The first landmark of an ordering need not hold right before the second one is met. -/
theorem extract_rhw_not_before_outbox :
    ¬ ∀ (t : Ground.Task Number.Double) (is : List Nat) (ss : List State),
      Task.ground outbox message = .ok t → t.IsPlanVia is ss → ∀ o ∈ (extract t .rhw).orders,
        ∀ first second, (extract t .rhw).find? o.first = some first →
          (extract t .rhw).find? o.second = some second →
          ∀ k, FirstMet t ss second (k + 1) → MetAt t ss first k := by
  intro hall
  obtain ⟨t, is, ss, hground, hplan, o, ho, first, second, hfirst, hsecond, hmet, hnot⟩ :=
    exists_not_metAt_outbox (κ := Number.Double)
  exact hnot (hall t is ss hground hplan o ho first second hfirst hsecond 2 hmet)

end Waymark.Landmark
