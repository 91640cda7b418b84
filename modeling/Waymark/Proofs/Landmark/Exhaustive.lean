import Mathlib.Tactic
import Waymark.Landmark.Extraction
import Waymark.Number.Double
import Waymark.Proofs.Ground.Propositional
import Waymark.Proofs.Landmark.Achievers

/-!
# Landmarks by exclusion on plans

A plan takes an action that may add a landmark, and before it meets one that is out of reach without
another it takes an action that may add that other one. This need not be enough: an effect under a condition
can be withheld, and one action can make both landmarks true at once. These are the only exceptions.

* `ByExclusion`, `exhaustive_spec`: the draft of all necessary facts;
* `exists_adder_of_mem_necessaryFacts`: what a plan takes on account of a necessary fact;
* `extract_exhaust_met_or_withheld`: every plan meets the landmarks, unless they are withheld;
* `extract_exhaust_precedes`: in the order of the landmarks, unless they are withheld or met together.
-/

namespace Waymark.Landmark

open Ground

variable {κ : Type} {s : Survey κ}

/-! ## The draft -/

/-- The ordering is between candidates the second of which is out of reach without the actions that may add
the first. -/
def ByExclusion (s : Survey κ) (candidates : Array Candidate) (o : Order) : Prop :=
  o.kind = .natural ∧ ∃ c c', candidates[o.first]? = some c ∧ candidates[o.second]? = some c' ∧
    ∀ f ∈ c'.facts, (s.layersAvoiding c.facts).reached f = false

theorem orderByExclusion_spec {d : Draft} {first : Nat} (hfirst : first < d.candidates.size)
    (h : ∀ o ∈ d.orders, ByExclusion s d.candidates o) :
    (s.orderByExclusion d first).candidates = d.candidates ∧
      ∀ o ∈ (s.orderByExclusion d first).orders, ByExclusion s d.candidates o := by
  unfold Survey.orderByExclusion
  dsimp only
  split
  case isTrue => exact ⟨rfl, h⟩
  let Good (d' : Draft) : Prop :=
    d'.candidates = d.candidates ∧ ∀ o ∈ d'.orders, ByExclusion s d.candidates o
  refine List.foldlRecOn (motive := Good) _ _ ⟨rfl, h⟩ fun d' hd' second hsecond => ?_
  split
  · rename_i hexcluded
    refine ⟨(s.candidates_order ..).trans hd'.1, fun o ho => ?_⟩
    rcases Survey.mem_orders_order ho with ho | ⟨-, -, rfl⟩
    · exact hd'.2 o ho
    have hc : d.candidates[first]? = some _ := Array.getElem?_eq_getElem hfirst
    have hc' : d.candidates[second]? = some _ := Array.getElem?_eq_getElem (List.mem_range.1 hsecond)
    have hfacts : d'.facts second = d.facts second := by rw [Draft.facts, hd'.1]; rfl
    have hunreached := List.all_eq_true.1 (Bool.and_eq_true_iff.1 hexcluded).2
    rw [hfacts, Draft.facts_of_getElem? hc', Draft.facts_of_getElem? hc] at hunreached
    refine ⟨rfl, _, _, hc, hc', fun f hf => ?_⟩
    simpa using hunreached f hf
  · exact hd'

/-- Exclusion yields the necessary facts, with orderings by exclusion. -/
theorem exhaustive_spec (s : Survey κ) :
    (∀ c ∈ s.exhaustive.candidates, ∃ f ∈ s.necessaryFacts, c = ⟨[f], .fact⟩) ∧
      ∀ o ∈ s.exhaustive.orders, ByExclusion s s.exhaustive.candidates o := by
  let start := s.necessaryFacts.foldl (fun (d : Draft) f => d.including [f] .fact) {}
  have hstart : (∀ c ∈ start.candidates, ∃ f ∈ s.necessaryFacts, c = ⟨[f], .fact⟩) ∧ start.orders = [] := by
    let Good (d : Draft) : Prop :=
      (∀ c ∈ d.candidates, ∃ f ∈ s.necessaryFacts, c = ⟨[f], .fact⟩) ∧ d.orders = []
    refine List.foldlRecOn (motive := Good) _ _ ⟨by simp, rfl⟩ fun d hd f hf => ⟨fun c hc => ?_, ?_⟩
    · rcases Draft.mem_candidates_add hc with hc | rfl
      · exact hd.1 c hc
      · exact ⟨f, hf, by rw [ascending_singleton]⟩
    · exact (d.orders_add ..).trans hd.2
  let Good (d : Draft) : Prop :=
    d.candidates = start.candidates ∧ ∀ o ∈ d.orders, ByExclusion s start.candidates o
  have hend : Good s.exhaustive := by
    have hnone : ∀ o ∈ start.orders, ByExclusion s start.candidates o := by simp [hstart.2]
    refine List.foldlRecOn (motive := Good) _ _ ⟨rfl, hnone⟩ fun d hd first hfirst => ?_
    obtain ⟨hcandidates, horders⟩ := hd
    rw [← hcandidates] at horders
    obtain ⟨hsame, hnext⟩ :=
      orderByExclusion_spec (by rw [hcandidates]; exact List.mem_range.1 hfirst) horders
    exact ⟨hsame.trans hcandidates, hcandidates ▸ hnext⟩
  exact ⟨hend.1 ▸ hstart.1, hend.1 ▸ hend.2⟩

/-! ## Plans -/

section Plans

variable {t : Ground.Task κ} {is : List Nat} {ss : List State} {f : Nat}

theorem lt_size_of_mem_necessaryFacts (ht : t.NeedsInRange) (hf : f ∈ (Survey.of t).necessaryFacts) :
    f < t.facts.size := by
  rcases List.mem_append.1 hf with hf | hf
  · exact ht.goal f hf
  · exact List.mem_range.1 (List.mem_filter.1 hf).1

/-- A necessary fact is a goal, which holds at the end of a plan, or a plan takes an action that may add
it. -/
theorem exists_adder_of_mem_necessaryFacts (ht : t.InRange) (hplan : t.IsPlanVia is ss)
    (hf : f ∈ (Survey.of t).necessaryFacts) :
    (∃ x ∈ ss, x.contains f = true) ∨ ∃ k i : Nat, is[k]? = some i ∧ i ∈ t.adders [f] := by
  obtain ⟨hvisited, last, hlast, hgoal⟩ := hplan
  have hgoals := State.containsAll_iff.1 (Bool.and_eq_true_iff.1 hgoal).1
  rcases List.mem_append.1 hf with hf | hf
  · exact .inl ⟨last, List.mem_of_getLast? hlast, hgoals f hf⟩
  -- Without the actions that may add the fact, some goal is out of reach. It holds at the end.
  have hnecessary := (Bool.and_eq_true_iff.1 (List.mem_filter.1 hf).2).2
  obtain ⟨g, hg, hunreached⟩ : ∃ g ∈ t.goalNeeds, ((Survey.of t).layersAvoiding [f]).reached g = false := by
    simpa [Survey.isNecessary, Survey.goalReached, Survey.of] using hnecessary
  rw [List.getLast?_eq_getElem?] at hlast
  obtain ⟨k, -, i, hi, hadder⟩ :=
    exists_adder_of_not_reached (s := Survey.of t) ht hvisited hunreached hlast (hgoals g hg)
  exact .inr ⟨k, i, hi, hadder⟩

/-- Before a landmark is met that is out of reach without another one, the other one is met, unless it is
withheld or is met by the same step. -/
theorem FirstMet.of_unreached {c c' : Candidate} {id' k : Nat} (id : Nat) (ht : s.task.InRange)
    (hc : ∀ f ∈ c.facts, f < s.task.facts.size) (hc' : ∀ f ∈ c'.facts, f < s.task.facts.size)
    (hvisited : s.task.visited s.task.initialState is = some ss)
    (hunreached : ∀ f ∈ c'.facts, (s.layersAvoiding c.facts).reached f = false)
    (h : FirstMet s.task ss (s.landmark id' c') k) :
    0 < k ∧ (Met s.task (ss.take k) (s.landmark id c) ∨ FirstMet s.task ss (s.landmark id c) k ∨
      ∃ j < k, Withheld s.task is ss (s.landmark id c) j) := by
  obtain ⟨⟨y, hy, hmet⟩, -⟩ := h
  obtain ⟨f, hf, z, hz, hzf⟩ := (met_landmark hc').1 hmet
  obtain rfl := List.mem_singleton.1 hz
  obtain ⟨j, hj, i, hi, hadder⟩ := exists_adder_of_not_reached ht hvisited (hunreached f hf) hy hzf
  obtain ⟨x, hx, hstep⟩ := met_or_withheld hc id hvisited hi hadder
  refine ⟨Nat.zero_lt_of_lt hj, ?_⟩
  by_cases hbefore : Met s.task (ss.take k) (s.landmark id c)
  · exact .inl hbefore
  rcases hstep with hstep | hwithheld
  · -- The step cannot be an earlier one, since the landmark is not met before.
    obtain rfl : j + 1 = k := by
      refine (Nat.succ_le_of_lt hj).eq_of_not_lt fun hlt => ?_
      exact not_met_of_take hbefore hlt hx hstep
    exact .inr (.inl ⟨⟨x, hx, hstep⟩, hbefore⟩)
  · exact .inr (.inr ⟨j, hj, hwithheld⟩)

end Plans

/-! ## Landmarks of plans -/

variable [Number.Scale κ]

/-- **Landmarks by exclusion on plans.** Every landmark is a single fact. A plan meets it, unless a step of the
plan withholds it: the step takes an action that may add the fact, under a condition that does not hold. In
particular every plan meets the landmarks that no effect under a condition adds. -/
theorem extract_exhaust_met_or_withheld {domain : Planning.Domain} {problem : Planning.Problem}
    {t : Ground.Task κ} (hground : Task.ground domain problem = .ok t) {is : List Nat} {ss : List State}
    (hplan : t.IsPlanVia is ss) :
    ∀ l ∈ (extract t .exhaust).landmarks, (∃ name, l.facts = [name]) ∧
      (Met t ss l ∨ ∃ k, Withheld t is ss l k) ∧ (AddedOutright t l → Met t ss l) := by
  have ht := Task.inRange_of_ground hground
  unfold extract
  dsimp only
  split
  case isFalse => exact nofun
  intro l hl
  obtain ⟨id, c, hc, rfl⟩ := exists_of_mem_landmarks_finish hl
  obtain ⟨f, hf, rfl⟩ := (exhaustive_spec (Survey.of t)).1 c hc
  have hlt := lt_size_of_mem_necessaryFacts (Task.needsInRange_of_ground hground) hf
  have hrange : ∀ g ∈ (⟨[f], .fact⟩ : Candidate).facts, g < t.facts.size := by simpa using hlt
  have hmet : Met t ss ((Survey.of t).landmark id ⟨[f], .fact⟩) ∨
      ∃ k, Withheld t is ss ((Survey.of t).landmark id ⟨[f], .fact⟩) k := by
    rcases exists_adder_of_mem_necessaryFacts ht hplan hf with hholds | ⟨k, i, hi, hadder⟩
    · exact .inl ((met_landmark_iff (s := Survey.of t) hlt).2 hholds)
    · obtain ⟨y, hy, hstep⟩ := met_or_withheld (s := Survey.of t) hrange id hplan.1 hi hadder
      exact hstep.imp (fun h => h.mono (by simpa using List.mem_of_getElem? hy)) fun h => ⟨k, h⟩
  refine ⟨⟨_, rfl⟩, hmet, fun houtright => hmet.resolve_right fun ⟨k, hk⟩ => ?_⟩
  exact houtright.not_withheld ht hplan.1 hk

/-- A message can be sent without being logged, though that it is logged is a landmark. -/
theorem exists_not_met_outbox : ∃ (t : Ground.Task κ) (is : List Nat) (ss : List State),
    Task.ground outbox message = .ok t ∧ t.IsPlanVia is ss ∧
      ∃ l ∈ (extract t .exhaust).landmarks, ¬ Met t ss l := by
  obtain ⟨⟨names, numbers, hnumbers⟩, hnames, hground, hplan⟩ := exists_plan_outbox (κ := κ)
  subst hnames
  refine ⟨_, _, _, hground, hplan, ?_⟩
  have hlandmarks : (extract (outboxTask (κ := κ) ⟨_, numbers, hnumbers⟩) .exhaust).landmarks.map (·.facts) =
      [["(drafted)"], ["(queued)"], ["(logged)"], ["(sent)"]] := by cbv
  obtain ⟨l, hl, hfacts⟩ := List.mem_map.1 (show ["(logged)"] ∈ _ by rw [hlandmarks]; simp)
  refine ⟨l, hl, ?_⟩
  rw [met_iff_of_names (t := outboxTask ⟨_, numbers, hnumbers⟩) (f := 3) hfacts rfl]
  decide

theorem extract_exhaust_met_or_withheld_outbox :
    ∃ (t : Ground.Task Number.Double) (is : List Nat) (ss : List State),
      Task.ground outbox message = .ok t ∧ t.IsPlanVia is ss ∧
      ∃ l ∈ (extract t .exhaust).landmarks, ¬ Met t ss l ∧ ∃ k, Withheld t is ss l k := by
  obtain ⟨t, is, ss, hground, hplan, l, hl, hnot⟩ := exists_not_met_outbox (κ := Number.Double)
  obtain ⟨-, hcases, -⟩ := extract_exhaust_met_or_withheld hground hplan l hl
  exact ⟨t, is, ss, hground, hplan, l, hl, hnot, hcases.resolve_left hnot⟩

/-- Not every plan meets every landmark. -/
theorem extract_exhaust_unmet_outbox : ¬ ∀ (t : Ground.Task Number.Double) (is : List Nat) (ss : List State),
    Task.ground outbox message = .ok t → t.IsPlanVia is ss →
      ∀ l ∈ (extract t .exhaust).landmarks, Met t ss l := by
  intro hall
  obtain ⟨t, is, ss, hground, hplan, l, hl, hnot⟩ := exists_not_met_outbox (κ := Number.Double)
  exact hnot (hall t is ss hground hplan l hl)

/-! ## Orderings on runs -/

/-- **Orderings by exclusion on runs.** When the second landmark of an ordering is met for the first time, the
first one has been met before, unless both are met for the first time by the same step, or a step before
withheld the first one. In particular it has been met before if no effect under a condition adds it and no
action adds both. -/
theorem extract_exhaust_precedes {domain : Planning.Domain} {problem : Planning.Problem} {t : Ground.Task κ}
    (hground : Task.ground domain problem = .ok t) {is : List Nat} {ss : List State}
    (hvisited : t.visited t.initialState is = some ss) :
    ∀ o ∈ (extract t .exhaust).orders, o.kind = .natural ∧ ∃ first second,
      (extract t .exhaust).find? o.first = some first ∧ (extract t .exhaust).find? o.second = some second ∧
      ∀ k, FirstMet t ss second k →
        (Met t (ss.take k) first ∨ FirstMet t ss first k ∨ ∃ j < k, Withheld t is ss first j) ∧
        (AddedOutright t first → (∀ a ∈ t.actions, MayMeet t a first → ¬ MayMeet t a second) →
          Met t (ss.take k) first) := by
  have ht := Task.inRange_of_ground hground
  unfold extract
  dsimp only
  split
  case isFalse => exact nofun
  intro o ho
  obtain ⟨o', ho', rfl⟩ := exists_of_mem_orders_finish ho
  obtain ⟨hcandidates, horders⟩ := exhaustive_spec (Survey.of t)
  obtain ⟨hkind, c, c', hc, hc', hunreached⟩ := horders o' ho'
  refine ⟨hkind, _, _, find?_finish hc, find?_finish hc', fun k hk => ?_⟩
  have hrange (x : Candidate) (hx : x ∈ (Survey.of t).exhaustive.candidates) :
      ∀ f ∈ x.facts, f < t.facts.size := by
    obtain ⟨f, hf, rfl⟩ := hcandidates x hx
    simpa using lt_size_of_mem_necessaryFacts (Task.needsInRange_of_ground hground) hf
  have hcrange := hrange c (Array.mem_of_getElem? hc)
  have hcrange' := hrange c' (Array.mem_of_getElem? hc')
  obtain ⟨hpos, hcases⟩ := FirstMet.of_unreached (s := Survey.of t)
    ((Survey.of t).newId (Survey.of t).exhaustive o'.first) ht hcrange hcrange' hvisited hunreached hk
  refine ⟨hcases, fun houtright hapart => ?_⟩
  rcases hcases with hbefore | htogether | ⟨j, -, hwithheld⟩
  · exact hbefore
  · -- One step meets both for the first time, so its action may add both.
    obtain ⟨k, rfl⟩ := Nat.exists_eq_succ_of_ne_zero hpos.ne'
    obtain ⟨y, hy, -⟩ := htogether.met
    obtain ⟨i, a, -, hi, ha, -⟩ := Task.exists_step_to hvisited hy
    have hfirst := FirstMet.mayMeet (s := Survey.of t) hcrange ht hvisited htogether hi ha
    have hsecond := FirstMet.mayMeet (s := Survey.of t) hcrange' ht hvisited hk hi ha
    exact absurd hsecond (hapart a (Array.mem_of_getElem? ha) hfirst)
  · exact absurd hwithheld (houtright.not_withheld ht hvisited)

section Parcel

/-- A domain in which a parcel is packed and shipped. That it is shipped is noted, and can be noted before. -/
def parcel : Planning.Domain where
  name := "parcel"
  predicates := [⟨"packed", []⟩, ⟨"noted", []⟩, ⟨"shipped", []⟩]
  schemas := [
    { name := "pack", condition := none, effect := some (atomExpr "packed") },
    { name := "note", condition := none, effect := some (atomExpr "noted") },
    { name := "ship"
      condition := some (atomExpr "packed")
      effect := some (.list [.atom "and", atomExpr "shipped", atomExpr "noted"]) }]

/-- The problem to ship a parcel. -/
def delivery : Planning.Problem where
  name := "delivery"
  domain := "parcel"
  goal := atomExpr "shipped"

/-- The facts by number. -/
def parcelNames : Array String := #["(packed)", "(noted)", "(shipped)"]

/-- The ground task of the domain and the problem. -/
def parcelTask (facts : FactTable) : Ground.Task κ where
  facts
  init := []
  actions := #[
    { name := "(pack)", needs := [], forbids := [], adds := [0], deletes := [], conditional := []
      cost := Number.Scale.ofNat 1 },
    { name := "(note)", needs := [], forbids := [], adds := [1], deletes := [], conditional := []
      cost := Number.Scale.ofNat 1 },
    { name := "(ship)", needs := [0], forbids := [], adds := [2, 1], deletes := [], conditional := []
      cost := Number.Scale.ofNat 1 }]
  goalNeeds := [2]
  goalForbids := []

theorem exists_ground_parcel : ∃ facts : FactTable, facts.names = parcelNames ∧
    Task.ground (κ := κ) parcel delivery = .ok (parcelTask facts) := by
  have hbare : bareTask (κ := κ) parcel delivery = some {
      init := []
      actions := [
        ⟨"(pack)", { effect := [(true, "(packed)")] }, Number.Scale.ofNat 1⟩,
        ⟨"(note)", { effect := [(true, "(noted)")] }, Number.Scale.ofNat 1⟩,
        ⟨"(ship)", { condition := [(true, "(packed)")], effect := [(true, "(shipped)"), (true, "(noted)")] },
          Number.Scale.ofNat 1⟩]
      goal := [(true, "(shipped)")] } := rfl
  have hpruned (facts : FactTable) (hnames : facts.names = parcelNames) :
      (parcelTask (κ := κ) facts).pruned = parcelTask facts := by
    obtain ⟨names, numbers, hnumbers⟩ := facts
    subst hnames
    cbv
  refine exists_ground_of_bare hbare ?_ hpruned
  simp only [NamedTask.places, actionPlaces, splitPlaces,
    List.mapM_cons, List.mapM_nil, Naming.pure_eq, Naming.bind_eq]
  cbv

/-- A parcel can be shipped and noted in one step, though being noted is ordered before being shipped. -/
theorem exists_together_parcel : ∃ (t : Ground.Task κ) (is : List Nat) (ss : List State),
    Task.ground parcel delivery = .ok t ∧ t.IsPlanVia is ss ∧ ∃ o ∈ (extract t .exhaust).orders,
      ∃ first second, (extract t .exhaust).find? o.first = some first ∧
        (extract t .exhaust).find? o.second = some second ∧ FirstMet t ss second 2 ∧ ¬ Met t (ss.take 2) first := by
  obtain ⟨⟨names, numbers, hnumbers⟩, hnames, hground⟩ := exists_ground_parcel (κ := κ)
  subst hnames
  have hplan : (parcelTask (κ := κ) ⟨_, numbers, hnumbers⟩).IsPlanVia [0, 2] [⟨#[0]⟩, ⟨#[1]⟩, ⟨#[7]⟩] :=
    ⟨by cbv, ⟨#[7]⟩, rfl, by cbv⟩
  have hgraph : extract (parcelTask (κ := κ) ⟨_, numbers, hnumbers⟩) .exhaust = {
      landmarks := [
        { id := 0, facts := ["(noted)"], firstAchievers := ["(note)", "(ship)"]
          possibleAchievers := ["(note)", "(ship)"] },
        { id := 1, facts := ["(packed)"], firstAchievers := ["(pack)"], possibleAchievers := ["(pack)"] },
        { id := 2, facts := ["(shipped)"], firstAchievers := ["(ship)"], possibleAchievers := ["(ship)"]
          isGoal := true }]
      orders := [⟨0, 2, .natural⟩, ⟨1, 2, .natural⟩] } := by cbv
  refine ⟨_, _, _, hground, hplan, ?_⟩
  rw [hgraph]
  refine ⟨⟨0, 2, .natural⟩, by simp, _, _, rfl, rfl, ⟨⟨⟨#[7]⟩, rfl, ?_⟩, ?_⟩, ?_⟩
  · rw [met_iff_of_names (t := parcelTask ⟨_, numbers, hnumbers⟩) (f := 2) rfl rfl]
    decide
  · rw [met_iff_of_names (t := parcelTask ⟨_, numbers, hnumbers⟩) (f := 2) rfl rfl]
    decide
  · rw [met_iff_of_names (t := parcelTask ⟨_, numbers, hnumbers⟩) (f := 1) rfl rfl]
    decide

end Parcel

theorem extract_exhaust_precedes_parcel :
    ∃ (t : Ground.Task Number.Double) (is : List Nat) (ss : List State),
      Task.ground parcel delivery = .ok t ∧ t.IsPlanVia is ss ∧ ∃ o ∈ (extract t .exhaust).orders,
        ∃ first second, (extract t .exhaust).find? o.first = some first ∧
          (extract t .exhaust).find? o.second = some second ∧ FirstMet t ss second 2 ∧
          (FirstMet t ss first 2 ∨ ∃ j < 2, Withheld t is ss first j) := by
  obtain ⟨t, is, ss, hground, hplan, o, ho, first, second, hfirst, hsecond, hmet, hnot⟩ :=
    exists_together_parcel (κ := Number.Double)
  obtain ⟨-, first', second', hfirst', hsecond', hruns⟩ := extract_exhaust_precedes hground hplan.1 o ho
  obtain rfl := Option.some.inj (hfirst.symm.trans hfirst')
  obtain rfl := Option.some.inj (hsecond.symm.trans hsecond')
  exact ⟨t, is, ss, hground, hplan, o, ho, first, second, hfirst, hsecond, hmet, (hruns 2 hmet).1.resolve_left hnot⟩

/-- The first landmark of an ordering need not be met before the second one. -/
theorem extract_exhaust_together_parcel :
    ¬ ∀ (t : Ground.Task Number.Double) (is : List Nat) (ss : List State),
      Task.ground parcel delivery = .ok t → t.IsPlanVia is ss → ∀ o ∈ (extract t .exhaust).orders,
        ∀ first second, (extract t .exhaust).find? o.first = some first →
          (extract t .exhaust).find? o.second = some second →
          ∀ k, FirstMet t ss second k → Met t (ss.take k) first := by
  intro hall
  obtain ⟨t, is, ss, hground, hplan, o, ho, first, second, hfirst, hsecond, hmet, hnot⟩ :=
    exists_together_parcel (κ := Number.Double)
  exact hnot (hall t is ss hground hplan o ho first second hfirst hsecond 2 hmet)

end Waymark.Landmark
