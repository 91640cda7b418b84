import Mathlib.Tactic
import Waymark.Number.Double
import Waymark.Proofs.View.Decisions

/-!
# The flow of a build view

Selections are replayed one after the other. Each of them answers what is due among the plans that are left, and
leaves fewer plans. What a view offers is what the flow accepts next.

* `exists_of_answer`, `exists_of_replay`: what selections leave;
* `replay_append`: selections that follow others;
* `build_of_replay`, `cases_of_build`: views and the plans that are left;
* `build_offers_exact`: what a view offers is what is accepted next.
-/

namespace Waymark.View

variable {κ : Type} {c : Context κ} {d : Direction} {live live' : List Nat} {s : Selection}

/-! ## Plans that are left -/

theorem Context.restrict_sublist (c : Context κ) (hashes : List String) (live : List Nat) :
    (c.restrict hashes live).Sublist live := by
  unfold restrict
  split
  · exact List.Sublist.refl live
  · exact List.filter_sublist

theorem Context.answer_eq_ok : c.answer d live s = .ok live' ↔
    ∃ g, (c.due d live).choose s = .ok g ∧ c.restrict s.hashes (live.filter g.plans.contains) = live' := by
  unfold answer
  rw [bind_eq_ok]
  constructor
  · rintro ⟨g, hg, heq⟩
    exact ⟨g, hg, Except.ok.inj heq⟩
  · rintro ⟨g, hg, rfl⟩
    exact ⟨g, hg, rfl⟩

/-- A selection leaves fewer plans. -/
theorem exists_of_answer (hc : c.Proper) (hlive : c.Live live) (htwo : 2 ≤ live.length)
    (h : c.answer d live s = .ok live') : c.Live live' ∧ live'.length < live.length := by
  obtain ⟨base, key, hsorts⟩ := exists_sorts_due hc hlive htwo d
  obtain ⟨g, hg, rfl⟩ := Context.answer_eq_ok.1 h
  have hfewer := hsorts.length_kept_lt (hsorts.choose_eq_ok.1 hg).1
  have hrestrict := c.restrict_sublist s.hashes (live.filter g.plans.contains)
  exact ⟨(hrestrict.trans List.filter_sublist).trans hlive, hrestrict.length_le.trans_lt hfewer⟩

/-- Selections leave some of the plans, and there are fewer of them than plans before. -/
theorem exists_of_replay (hc : c.Proper) {round : Nat} {ss : List Selection} (hlive : c.Live live)
    (h : c.replay d round live ss = .ok live') :
    c.Live live' ∧ (ss = [] ∨ ss.length < live.length) := by
  induction ss generalizing round live with
  | nil =>
    obtain rfl := Except.ok.inj h
    exact ⟨hlive, .inl rfl⟩
  | cons s rest ih =>
    unfold Context.replay at h
    split at h
    · cases h
    · rename_i htwo
      obtain ⟨next, hnext, h⟩ := bind_eq_ok.1 h
      obtain ⟨hliveNext, hfewer⟩ := exists_of_answer hc hlive (by omega) hnext
      obtain ⟨hliveLast, hrest⟩ := ih hliveNext h
      refine ⟨hliveLast, .inr ?_⟩
      rw [List.length_cons]
      rcases hrest with rfl | hrest
      · rw [List.length_nil]
        omega
      · omega

theorem Context.replay_cons (c : Context κ) (d : Direction) (round : Nat) (live : List Nat) (s : Selection)
    (rest : List Selection) : c.replay d round live (s :: rest) =
      if live.length ≤ 1 then .error (.selection (.flowEnded round))
      else c.answer d live s >>= fun next => c.replay d (round + 1) next rest := rfl

/-- Selections that follow others are replayed on what these leave. -/
theorem Context.replay_append (c : Context κ) (d : Direction) (round : Nat) (live : List Nat)
    (ss ts : List Selection) : c.replay d round live (ss ++ ts) =
      c.replay d round live ss >>= fun next => c.replay d (round + ss.length) next ts := by
  induction ss generalizing round live with
  | nil => rfl
  | cons s rest ih =>
    rw [List.cons_append, replay_cons, replay_cons]
    split
    · rfl
    · have hround : round + (s :: rest).length = round + 1 + rest.length := by
        rw [List.length_cons]
        omega
      cases hanswer : c.answer d live s with
      | error e => rfl
      | ok next => exact (ih (round + 1) next).trans (by rw [hround]; rfl)

/-! ## Views -/

theorem status_eq_choosing {n : Nat} : Status.ofCount n = .choosing ↔ 2 ≤ n := by
  match n with
  | 0 => exact iff_of_false nofun (by omega)
  | 1 => exact iff_of_false nofun (by omega)
  | n + 2 => exact iff_of_true rfl (by omega)

theorem offers_buildView (htwo : 2 ≤ live.length) :
    (c.buildView d live).offers = c.offersOf live (c.due d live) := if_pos htwo

/-- All plans that are left are shown. -/
theorem Context.Live.length_plansAt (h : c.Live live) : (c.plansAt live).length = live.length :=
  Context.length_plansAt fun _ hp => h.lt_size hp

/-- A view of the plans of a context shows them with their digests. -/
theorem exists_hash_of_mem_plansAt (hc : c.Identified) {p : Plan κ} (hp : p ∈ c.plansAt live) :
    ∃ i ∈ live, c.plans[i]? = some p ∧ p.hash = some (c.hash i) := by
  obtain ⟨i, hi, hget⟩ := List.mem_filterMap.1 hp
  exact ⟨i, hi, hget, (hc.hash_of_getElem? hget).1⟩

/-- The plans that a choice keeps are those whose digests the user is shown with it. -/
theorem Decision.Keyed.plansAt_kept {base : List Nat} {key : Nat → String} {decision : Decision} {g : Group}
    (h : decision.Keyed c live base key) (hc : c.Identified) (hg : g ∈ decision.options) :
    c.plansAt (live.filter g.plans.contains) =
      (c.plansAt live).filter fun p => p.hash.any (c.offer live decision g).hashes.contains :=
  hc.plansAt_filter (fun p hp => h.inRange p (h.live_subset p hp)) fun p hp => h.inRange p ((h.mem_plans hg).1 hp).1

/-- What a request is answered with, once its context is prepared. -/
theorem build_of_prepare {r : Request κ} (hprepare : Context.prepare r = .ok (some c)) (ss : List Selection) :
    build { r with selections := ss } d =
      if c.plans.isEmpty then
        if ss.isEmpty then .ok (some (noPlans d.kind)) else .error (.selection .noPlans)
      else (fun live => some (c.buildView d live)) <$> c.replay d 0 c.all ss := by
  have hprepare : Context.prepare { r with selections := ss } = .ok (some c) := hprepare
  unfold build
  rw [hprepare]
  rfl

/-- The view of the plans that selections leave. -/
theorem build_of_replay {r : Request κ} {ss : List Selection} (hprepare : Context.prepare r = .ok (some c))
    (hplans : c.plans.isEmpty = false) (hreplay : c.replay d 0 c.all ss = .ok live) :
    build { r with selections := ss } d = .ok (some (c.buildView d live)) := by
  rw [build_of_prepare hprepare, hplans, hreplay]
  rfl

/-- Without selections all plans are left. -/
theorem build_start {r : Request κ} (hprepare : Context.prepare r = .ok (some c)) (hplans : c.plans.isEmpty = false)
    (hnone : r.selections = []) : build r d = .ok (some (c.buildView d c.all)) := by
  have hstart : build { r with selections := r.selections } d = .ok (some (c.buildView d c.all)) := by
    refine build_of_replay hprepare hplans ?_
    rw [hnone]
    rfl
  exact hstart

theorem exists_prepare_of_build {r : Request κ} {v : View κ} (h : build r d = .ok (some v)) :
    ∃ c, Context.prepare r = .ok (some c) := by
  unfold build at h
  obtain ⟨prepared, hprepare, h⟩ := bind_eq_ok.1 h
  cases prepared with
  | none => cases h
  | some c => exact ⟨c, hprepare⟩

/-- A view of no plans has no selections behind it, all others show the plans that the selections leave. -/
theorem cases_of_build {r : Request κ} {v : View κ} (hprepare : Context.prepare r = .ok (some c))
    (h : build r d = .ok (some v)) :
    (c.plans.isEmpty = true ∧ r.selections = [] ∧ v = noPlans d.kind) ∨
      (c.plans.isEmpty = false ∧ ∃ live, c.replay d 0 c.all r.selections = .ok live ∧ v = c.buildView d live) := by
  rw [build_of_prepare hprepare r.selections] at h
  split at h
  · rename_i hempty
    split at h
    · rename_i hnone
      exact .inl ⟨hempty, List.isEmpty_iff.1 hnone, (Option.some.inj (Except.ok.inj h)).symm⟩
    · cases h
  · rename_i hplans
    obtain ⟨live, hlive, heq⟩ := map_eq_ok.1 h
    exact .inr ⟨Bool.eq_false_iff.2 hplans, live, hlive, (Option.some.inj heq).symm⟩

/-- Further selections are replayed on the plans that are left. -/
theorem build_append {r : Request κ} (hprepare : Context.prepare r = .ok (some c)) (hplans : c.plans.isEmpty = false)
    (hreplay : c.replay d 0 c.all r.selections = .ok live) (ts : List Selection) :
    build { r with selections := r.selections ++ ts } d =
      (fun next => some (c.buildView d next)) <$> c.replay d r.selections.length live ts := by
  rw [build_of_prepare hprepare, if_neg (Bool.eq_false_iff.1 hplans), Context.replay_append, hreplay, Nat.zero_add]
  rfl

/-- Without digests a further selection leaves the plans of the group that it chooses. -/
theorem replay_concat {ss : List Selection} (hreplay : c.replay d 0 c.all ss = .ok live) (htwo : 2 ≤ live.length)
    (hs : s.hashes = []) : c.replay d 0 c.all (ss ++ [s]) =
      (fun g => live.filter g.plans.contains) <$> (c.due d live).choose s := by
  have hanswer : c.answer d live s = (fun g => live.filter g.plans.contains) <$> (c.due d live).choose s := by
    unfold Context.answer
    rw [hs]
    rfl
  rw [Context.replay_append, hreplay]
  refine (Context.replay_cons c d _ live s []).trans ?_
  rw [if_neg (by omega), hanswer]
  cases (c.due d live).choose s <;> rfl

/-- A selection answers one of the offers if it chooses a group. -/
theorem exists_answers_iff {base : List Nat} {key : Nat → String} {decision : Decision}
    (h : decision.Keyed c live base key) :
    (∃ o ∈ c.offersOf live decision, s.Answers o) ↔ ∃ g, decision.choose s = .ok g := by
  rw [offersOf_eq]
  constructor
  · rintro ⟨o, ho, hanswers⟩
    obtain ⟨g, hg, rfl⟩ := List.mem_map.1 ho
    exact ⟨g, (h.answers_iff hg).1 hanswers⟩
  · rintro ⟨g, hchoose⟩
    have hg := (h.choose_eq_ok.1 hchoose).1
    exact ⟨_, List.mem_map_of_mem hg, (h.answers_iff hg).2 hchoose⟩

/-- The view that follows a choice shows the plans of its offer: some of those before, and none only if the offer is
not available. -/
theorem Decision.Sorts.buildView_kept {base : List Nat} {key : Nat → String} {decision : Decision} {g : Group}
    (h : decision.Sorts c live base key) (hc : c.Proper) (hlive : c.Live live) (hg : g ∈ decision.options) :
    (c.buildView d (live.filter g.plans.contains)).plans =
        (c.buildView d live).plans.filter (fun p => p.hash.any (c.offer live decision g).hashes.contains) ∧
      ((c.offer live decision g).isAvailable = true →
        (c.buildView d (live.filter g.plans.contains)).plans ≠ [] ∧
        (c.buildView d (live.filter g.plans.contains)).plans.length < (c.buildView d live).plans.length) ∧
      ((c.offer live decision g).isAvailable = false →
        (c.buildView d (live.filter g.plans.contains)).plans = [] ∧
        (c.buildView d (live.filter g.plans.contains)).status = .deadEnd) := by
  have hkept : c.Live (live.filter g.plans.contains) := List.filter_sublist.trans hlive
  refine ⟨h.plansAt_kept hc.toIdentified hg, fun havailable => ?_, fun hout => ?_⟩
  · have hlength : (c.plansAt (live.filter g.plans.contains)).length = (live.filter g.plans.contains).length :=
      hkept.length_plansAt
    have hpos := List.length_pos_of_ne_nil ((h.kept_ne_nil_iff hg).2 havailable)
    refine ⟨List.ne_nil_of_length_pos (hlength ▸ hpos), ?_⟩
    exact (hlength.trans_lt (h.length_kept_lt hg)).trans_eq hlive.length_plansAt.symm
  · have hnil : live.filter g.plans.contains = [] := by
      by_contra hne
      exact absurd ((h.kept_ne_nil_iff hg).1 hne) (Bool.eq_false_iff.1 hout)
    rw [hnil]
    exact ⟨rfl, rfl⟩

/-- **What a view offers is what the flow accepts next.** No schema of the domain is to be named like the end of
a plan. While there is a choice, each plan that is shown stands in exactly one offer, and at least two offers are
available. A selection without digests is accepted if it answers one of the offers, and then leaves the plans of
the offer: fewer than before, and none only if the offer is not available. Otherwise it is refused. Where there is
no choice all further selections are refused. -/
theorem build_offers_exact {r : Request κ} {v : View κ}
    (hend : ∀ domain, Planning.Domain.read r.task.domain = .ok domain → ∀ s ∈ domain.schemas, s.name ≠ endOfPlan)
    (h : build r d = .ok (some v)) :
    (v.status = .choosing →
      (∀ p ∈ v.plans, ∃ hash, p.hash = some hash ∧ v.offers.countP (·.hashes.contains hash) = 1) ∧
      2 ≤ v.offers.countP (·.isAvailable) ∧
      ∀ s : Selection, s.hashes = [] →
        ((∃ v', build { r with selections := r.selections ++ [s] } d = .ok (some v')) ↔ ∃ o ∈ v.offers, s.Answers o) ∧
        ((¬ ∃ o ∈ v.offers, s.Answers o) →
          ∃ fault, build { r with selections := r.selections ++ [s] } d = .error (.selection fault)) ∧
        ∀ o ∈ v.offers, s.Answers o → ∃ v',
          build { r with selections := r.selections ++ [s] } d = .ok (some v') ∧
          v'.plans = v.plans.filter (fun p => p.hash.any o.hashes.contains) ∧
          (o.isAvailable = true → v'.plans ≠ [] ∧ v'.plans.length < v.plans.length) ∧
          (o.isAvailable = false → v'.plans = [] ∧ v'.status = .deadEnd)) ∧
    (v.status ≠ .choosing → ∀ (s : Selection) (rest : List Selection),
      ∃ fault, build { r with selections := r.selections ++ s :: rest } d = .error (.selection fault)) := by
  obtain ⟨c, hprepare⟩ := exists_prepare_of_build h
  have hc := proper_of_prepare hend hprepare
  obtain ⟨hempty, -, rfl⟩ | ⟨hplans, live, hreplay, rfl⟩ := cases_of_build hprepare h
  · refine ⟨nofun, fun _ s rest => ⟨.noPlans, ?_⟩⟩
    rw [build_of_prepare hprepare, if_pos hempty, if_neg (by simp)]
  obtain ⟨hlive, -⟩ := exists_of_replay hc (List.Sublist.refl c.all) hreplay
  constructor
  · intro hstatus
    have htwo : 2 ≤ live.length := status_eq_choosing.1 hstatus
    obtain ⟨base, key, hsorts⟩ := exists_sorts_due hc hlive htwo d
    rw [offers_buildView htwo]
    refine ⟨fun p hp => ?_, hsorts.two_le_countP_available, fun s hs => ?_⟩
    · obtain ⟨i, hi, -, hhash⟩ := exists_hash_of_mem_plansAt hc.toIdentified hp
      exact ⟨c.hash i, hhash, hsorts.countP_hashes hc.toIdentified hi⟩
    have hnext : build { r with selections := r.selections ++ [s] } d =
        (fun g => some (c.buildView d (live.filter g.plans.contains))) <$> (c.due d live).choose s := by
      rw [build_of_prepare hprepare, if_neg (Bool.eq_false_iff.1 hplans), replay_concat hreplay htwo hs]
      cases (c.due d live).choose s <;> rfl
    rw [hnext, exists_answers_iff hsorts.toKeyed]
    refine ⟨?_, ?_, ?_⟩
    · constructor
      · rintro ⟨v', hv'⟩
        obtain ⟨g, hg, -⟩ := map_eq_ok.1 hv'
        exact ⟨g, hg⟩
      · rintro ⟨g, hg⟩
        exact ⟨_, map_eq_ok.2 ⟨g, hg, rfl⟩⟩
    · intro hnone
      cases hchoose : (c.due d live).choose s with
      | error e =>
        obtain ⟨fault, rfl⟩ := choose_failsOnly (c.due d live) s e hchoose
        exact ⟨fault, rfl⟩
      | ok g => exact absurd ⟨g, hchoose⟩ hnone
    · intro o ho hanswers
      obtain ⟨g, hg, rfl⟩ := List.mem_map.1 ho
      have hchoose := (hsorts.answers_iff hg).1 hanswers
      exact ⟨_, map_eq_ok.2 ⟨g, hchoose, rfl⟩, hsorts.buildView_kept hc hlive hg⟩
  · intro hstatus s rest
    have hone : live.length ≤ 1 := by
      by_contra hmore
      exact hstatus (status_eq_choosing.2 (by omega))
    refine ⟨.flowEnded r.selections.length, ?_⟩
    rw [build_append hprepare hplans hreplay, Context.replay_cons, if_pos hone]
    rfl

/-! ## Two ways at a crossroads -/

/-- A domain with two actions. -/
def crossroads : Planning.Domain where
  name := "crossroads"
  schemas := [{ name := "left" }, { name := "right" }]

/-- The text of that domain. -/
def crossroadsText : String :=
  "(define (domain crossroads) (:action left :parameters ()) (:action right :parameters ()))"

/-- Those texts that are read for it. -/
def crossingTask : Planning.TaskText :=
  ⟨crossroadsText, "(define (problem crossing) (:domain crossroads) (:goal ()))"⟩

/-- The choice between a plan of the one action and a plan of the other. -/
def crossing (cost : κ) : Request κ where
  task := crossingTask
  plans := [{ actions := ["(left)"], cost }, { actions := ["(right)"], cost }]

/-- Both plans with their digests. -/
def crossingContext (cost : κ) (left right : String) : Context κ where
  plans := #[{ actions := ["(left)"], cost, hash := some left }, { actions := ["(right)"], cost, hash := some right }]
  graph := {}
  choices := []

theorem read_crossroadsText : Planning.Domain.read crossroadsText = .ok crossroads := by decide +kernel

theorem requirePresent_crossingTask : crossingTask.requirePresent = .ok () := by decide

theorem task_crossing (cost : κ) : (crossing cost).task = crossingTask := rfl

theorem domain_crossing (cost : κ) : (crossing cost).task.domain = crossroadsText := rfl

theorem endOfPlan_not_mem_crossroads (cost : κ) :
    ∀ domain, Planning.Domain.read (crossing cost).task.domain = .ok domain →
      ∀ s ∈ domain.schemas, s.name ≠ endOfPlan := by
  intro domain hread
  rw [domain_crossing] at hread
  obtain rfl := Except.ok.inj (read_crossroadsText.symm.trans hread)
  decide

theorem fingerprint_left_ne_right : Plan.fingerprint ["(left)"] ≠ Plan.fingerprint ["(right)"] := by decide +kernel

theorem distinct_crossing (cost : κ) : Plan.distinct (crossing cost).plans =
    (crossingContext cost (Plan.fingerprint ["(left)"]) (Plan.fingerprint ["(right)"])).plans.toList := by
  have hnew : [Plan.fingerprint ["(left)"]].contains (Plan.fingerprint ["(right)"]) = false := by
    simpa using fingerprint_left_ne_right.symm
  simp only [crossing, Plan.distinct, Plan.distinctFrom, hnew, List.contains_nil, crossingContext,
    Bool.false_eq_true, if_false]

theorem all_isSound_crossing (cost : κ) : (crossing cost).plans.all (isSound crossroads) = true := by
  have hbelongs : ∀ action ∈ ["(left)", "(right)"], belongs crossroads action = true := by decide
  simp [crossing, isSound, hbelongs]

theorem prepare_crossing (cost : κ) : Context.prepare (crossing cost) =
    .ok (some (crossingContext cost (Plan.fingerprint ["(left)"]) (Plan.fingerprint ["(right)"]))) := by
  have hpresent : (crossing cost).task.requirePresent = .ok () := by
    rw [task_crossing, requirePresent_crossingTask]
  have hread : Planning.Domain.read (crossing cost).task.domain = .ok crossroads := by
    rw [domain_crossing, read_crossroadsText]
  rw [prepare_eq hpresent hread rfl (all_isSound_crossing cost) rfl, distinct_crossing]
  rfl

theorem exists_build_crossing (cost : κ) : ∃ v : View κ, build (crossing cost) .forward = .ok (some v) ∧
    v.status = .choosing ∧ v.offers.map (·.achiever) = ["(left)", "(right)"] := by
  have hgroups (left right : String) : (crossingContext cost left right).groupsAt .forward [0, 1] 0 =
      [⟨Plan.normalized "(left)", [0]⟩, ⟨Plan.normalized "(right)", [1]⟩] := by
    refine groupBy_pair ?_
    change Plan.normalized "(left)" < Plan.normalized "(right)"
    decide
  have hoptions (left right : String) :
      ((crossingContext cost left right).due .forward (crossingContext cost left right).all).options.map (·.key) =
        ["left", "right"] := by
    have hsplits : 2 ≤ ((crossingContext cost left right).groupsAt .forward [0, 1] 0).length := by
      rw [hgroups]
      exact le_rfl
    have hkeys : [Plan.normalized "(left)", Plan.normalized "(right)"] = ["left", "right"] := by decide
    change ((crossingContext cost left right).stepDecision .forward [0, 1]).options.map (·.key) = _
    rw [Context.stepDecision_of_first hsplits, hgroups]
    exact hkeys
  refine ⟨_, build_start (prepare_crossing cost) rfl rfl, rfl, ?_⟩
  have hshown := congrArg (List.map shown) (hoptions (Plan.fingerprint ["(left)"]) (Plan.fingerprint ["(right)"]))
  rw [offers_buildView (by simp [Context.all, crossingContext]), offersOf_eq, List.map_map]
  rw [List.map_map] at hshown
  exact hshown

theorem build_offers_exact_crossing : ∃ v, build (crossing (Number.Double.number 1)) .forward = .ok (some v) ∧
    v.status = .choosing ∧ 2 ≤ v.offers.countP (·.isAvailable) ∧
    ∃ v', build { crossing (Number.Double.number 1) with selections := [{ achiever := "left" }] } .forward =
        .ok (some v') ∧
      ∃ o ∈ v.offers, o.achiever = "(left)" ∧ v'.plans = v.plans.filter fun p => p.hash.any o.hashes.contains := by
  obtain ⟨v, hv, hstatus, hachievers⟩ := exists_build_crossing (Number.Double.number 1)
  obtain ⟨hchoosing, -⟩ := build_offers_exact (endOfPlan_not_mem_crossroads _) hv
  obtain ⟨-, htwo, hnext⟩ := hchoosing hstatus
  have hleft : "(left)" ∈ v.offers.map (·.achiever) := by
    rw [hachievers]
    exact List.mem_cons_self
  obtain ⟨o, ho, heq⟩ := List.mem_map.1 hleft
  have hanswers : Selection.Answers { achiever := "left" } o := by
    refine ⟨?_, .inl rfl, .inl rfl⟩
    rw [heq]
    decide
  obtain ⟨-, -, haccepted⟩ := hnext { achiever := "left" } rfl
  obtain ⟨v', hv', hplans, -⟩ := haccepted o ho hanswers
  exact ⟨v, hv, hstatus, htwo, v', hv', o, ho, heq, hplans⟩

end Waymark.View
