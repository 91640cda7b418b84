import Mathlib.Tactic
import Waymark.Proofs.View.Flow

/-!
# Where a build flow ends

A flow ends after fewer selections than there are plans, and each plan can be the one that it ends with.

* `Request.Offered`: selections that only take what is offered;
* `Request.Offered.exists_replay`: selections can be continued up to each of the plans that they leave;
* `build_resolves_every_plan`: how long a flow is, and where it can end.
-/

namespace Waymark.View

variable {κ : Type} {r : Request κ} {c : Context κ} {d : Direction} {live : List Nat} {ss : List Selection}

/-- Selections without digests, each of which answers an available offer of the view that those before it lead to. -/
inductive Request.Offered (r : Request κ) (d : Direction) : List Selection → Prop
  | nil : Offered r d []
  | concat {ss : List Selection} {s : Selection} {v : View κ} {o : Offer} (before : Offered r d ss)
      (unfiltered : s.hashes = []) (shown : build { r with selections := ss } d = .ok (some v)) (offered : o ∈ v.offers)
      (available : o.isAvailable = true) (answers : s.Answers o) : Offered r d (ss ++ [s])

/-- When one plan is left, the view names it. -/
theorem resolved_buildView {i : Nat} {p : Plan κ} (hget : c.plans[i]? = some p) :
    (c.buildView d [i]).status = .resolved ∧ (c.buildView d [i]).selected = p.hash := by
  have hplans : c.plansAt [i] = [p] := by
    unfold Context.plansAt
    rw [List.filterMap_cons_some hget]
    rfl
  refine ⟨rfl, ?_⟩
  unfold Context.buildView
  rw [hplans]
  rfl

/-- Selections can be continued, within what is offered, until a plan that they leave is the only one left. -/
theorem Request.Offered.exists_replay (hprepare : Context.prepare r = .ok (some c)) (hc : c.Proper)
    (hplans : c.plans.isEmpty = false) (hoffered : r.Offered d ss) (hreplay : c.replay d 0 c.all ss = .ok live)
    {i : Nat} (hi : i ∈ live) : ∃ ts, r.Offered d ts ∧ c.replay d 0 c.all ts = .ok [i] := by
  -- Each choice leaves fewer plans, and that of the plan's own key keeps the plan.
  induction hlength : live.length using Nat.strong_induction_on generalizing ss live with
  | _ n ih =>
    obtain ⟨hlive, -⟩ := exists_of_replay hc (List.Sublist.refl c.all) hreplay
    rcases Nat.lt_or_ge live.length 2 with hone | htwo
    · have hlast : live = [i] := by
        have hpos := List.length_pos_of_mem hi
        obtain ⟨j, rfl⟩ := List.length_eq_one_iff.1 (show live.length = 1 by omega)
        rw [List.mem_singleton.1 hi]
      exact ⟨ss, hoffered, hlast ▸ hreplay⟩
    · obtain ⟨base, key, hsorts⟩ := exists_sorts_due hc hlive htwo d
      obtain ⟨g, hg, hkey, havailable⟩ := hsorts.exists_option hi
      let s : Selection := { achiever := shown g.key }
      have hanswers : s.Answers (c.offer live (c.due d live) g) := ⟨rfl, .inl rfl, .inl rfl⟩
      have hnext : c.replay d 0 c.all (ss ++ [s]) = .ok (live.filter g.plans.contains) := by
        have hchoose := (hsorts.answers_iff hg).1 hanswers
        rw [replay_concat hreplay htwo rfl, hchoose]
        rfl
      have hoffer : c.offer live (c.due d live) g ∈ (c.buildView d live).offers := by
        rw [offers_buildView htwo, offersOf_eq]
        exact List.mem_map_of_mem hg
      have hkept : i ∈ live.filter g.plans.contains := by
        rw [hsorts.kept_eq hg]
        exact List.mem_filter.2 ⟨hi, decide_eq_true hkey.symm⟩
      have hfewer := hsorts.length_kept_lt hg
      have hview := build_of_replay hprepare hplans hreplay
      exact ih _ (hlength ▸ hfewer) (hoffered.concat rfl hview hoffer havailable hanswers) hnext hkept rfl

/-- **A flow is short, and can end with each plan.** No schema of the domain is to be named like the end of a plan.
When the data of a request belong together, fewer selections are accepted than there are plans, each of them counted
once. For each of these plans there are selections that only take what the views before them offer, and after which
it is the plan that is selected. -/
theorem build_resolves_every_plan
    (hend : ∀ domain, Planning.Domain.read r.task.domain = .ok domain → ∀ s ∈ domain.schemas, s.name ≠ endOfPlan)
    (hprepare : Context.prepare r = .ok (some c)) (d : Direction) :
    (∀ ss v, build { r with selections := ss } d = .ok (some v) → ss.length ≤ (Plan.distinct r.plans).length - 1) ∧
    ∀ p ∈ Plan.distinct r.plans, ∃ ss v hash, r.Offered d ss ∧
      build { r with selections := ss } d = .ok (some v) ∧ v.status = .resolved ∧
      p.hash = some hash ∧ v.selected = some hash := by
  have hc := proper_of_prepare hend hprepare
  have hall : c.plans.toList = Plan.distinct r.plans := by
    obtain ⟨-, -, -, -, rfl⟩ := exists_of_prepare hprepare
    rfl
  have hsize : c.all.length = (Plan.distinct r.plans).length := by
    rw [← hall, Array.length_toList]
    exact List.length_range
  constructor
  · intro ss v hbuild
    have hprepared : Context.prepare { r with selections := ss } = .ok (some c) := hprepare
    obtain ⟨-, hnone, -⟩ | ⟨-, live, hreplay, -⟩ := cases_of_build hprepared hbuild
    · obtain rfl : ss = [] := hnone
      exact Nat.zero_le _
    · have hreplay : c.replay d 0 c.all ss = .ok live := hreplay
      obtain ⟨-, rfl | hfewer⟩ := exists_of_replay hc (List.Sublist.refl c.all) hreplay
      · exact Nat.zero_le _
      · omega
  · intro p hp
    obtain ⟨i, hi⟩ := List.mem_iff_getElem?.1 (hall ▸ hp)
    have hget : c.plans[i]? = some p := by rwa [← Array.getElem?_toList]
    obtain ⟨hlt, -⟩ := Array.getElem?_eq_some_iff.1 hget
    have hplans : c.plans.isEmpty = false := by
      rw [Array.isEmpty, decide_eq_false_iff_not]
      omega
    obtain ⟨ss, hoffered, hreplay⟩ :=
      Request.Offered.nil.exists_replay (d := d) hprepare hc hplans rfl (List.mem_range.2 hlt)
    obtain ⟨hstatus, hselected⟩ := resolved_buildView (d := d) hget
    obtain ⟨hhash, -⟩ := hc.hash_of_getElem? hget
    exact ⟨ss, _, c.hash i, hoffered, build_of_replay hprepare hplans hreplay, hstatus, hhash, hselected.trans hhash⟩

theorem build_resolves_every_plan_crossing :
    (∀ ss v, build { crossing (Number.Double.number 1) with selections := ss } .backward = .ok (some v) →
      ss.length ≤ 1) ∧
    ∀ action ∈ ["(left)", "(right)"], ∃ ss v, (crossing (Number.Double.number 1)).Offered .backward ss ∧
      build { crossing (Number.Double.number 1) with selections := ss } .backward = .ok (some v) ∧
      v.status = .resolved ∧ v.selected = some (Plan.fingerprint [action]) := by
  obtain ⟨hshort, hreach⟩ :=
    build_resolves_every_plan (endOfPlan_not_mem_crossroads _) (prepare_crossing (Number.Double.number 1)) .backward
  rw [distinct_crossing] at hshort hreach
  refine ⟨hshort, fun action haction => ?_⟩
  have hmem : ∃ p ∈ (crossingContext (Number.Double.number 1) (Plan.fingerprint ["(left)"])
      (Plan.fingerprint ["(right)"])).plans.toList, p.hash = some (Plan.fingerprint [action]) := by
    rcases List.mem_cons.1 haction with rfl | haction
    · exact ⟨_, List.mem_cons_self, rfl⟩
    · obtain rfl := List.mem_singleton.1 haction
      exact ⟨_, List.mem_cons_of_mem _ List.mem_cons_self, rfl⟩
  obtain ⟨p, hp, hpHash⟩ := hmem
  obtain ⟨ss, v, hash, hoffered, hbuild, hstatus, hhash, hselected⟩ := hreach p hp
  exact ⟨ss, v, hoffered, hbuild, hstatus, hselected.trans (hhash.symm.trans hpHash)⟩

end Waymark.View
