import Mathlib.Tactic
import Waymark.Proofs.Outcome
import Waymark.Proofs.Plan.Identity
import Waymark.View.Build

/-!
# Prepared contexts

Preparation keeps one plan of each digest, so plans are told by their digests, and by their actions step by step
whichever way they are built. What a user is shown as a choice can be read back.

* `Displayable`: a choice that can be read back;
* `Context.Identified`, `identified_of_prepare`, `proper_of_prepare`: what holds of prepared contexts;
* `Context.Identified.hash_injective`: plans are told by their digests;
* `Context.Proper.exists_actionAt_ne`: plans differ at a step.
-/

namespace Waymark.View

open Planning

variable {κ : Type} {c : Context κ} {r : Request κ}

/-! ## Choices that are shown -/

/-- The choice is read back from what the user is shown. -/
def Displayable (key : String) : Prop := Plan.normalized (shown key) = key

theorem displayable_endOfPlan : Displayable endOfPlan := by
  unfold Displayable
  decide

theorem displayable_notAchieved : Displayable notAchieved := by
  unfold Displayable
  decide

theorem displayable_normalized (action : String) : Displayable (Plan.normalized action) := by
  by_cases hend : Plan.normalized action = endOfPlan
  · rw [hend]
    exact displayable_endOfPlan
  by_cases hnot : Plan.normalized action = notAchieved
  · rw [hnot]
    exact displayable_notAchieved
  have hshown : shown (Plan.normalized action) = "(" ++ Plan.normalized action ++ ")" := by
    simp [shown, hend, hnot]
  rw [Displayable, hshown, Plan.normalized_parenthesized]

/-- An action of a domain does not read as the end of a plan, unless a schema is named so. -/
theorem normalized_ne_endOfPlan {domain : Domain} (hend : ∀ s ∈ domain.schemas, s.name ≠ endOfPlan) {action : String}
    (h : belongs domain action = true) : Plan.normalized action ≠ endOfPlan := by
  intro heq
  have hblank : endOfPlan.toList.all (fun c => Text.isBlank c = false) = true := by decide
  have hlow : ∀ w ∈ [endOfPlan], Plan.IsLowWord w := by
    intro w hw
    obtain rfl := List.mem_singleton.1 hw
    exact ⟨⟨by decide, fun c hc => of_decide_eq_true (List.all_eq_true.1 hblank c hc)⟩, by decide⟩
  have hwords : Plan.actionWords action = [endOfPlan] := Plan.actionWords_of_normalized hlow heq
  unfold belongs at h
  rw [hwords] at h
  obtain ⟨s, hs, -⟩ := (Option.any_eq_true _ _).1 h
  exact hend s (List.mem_of_find?_eq_some hs) (by simpa using List.find?_some hs)

/-- The action at a step is shown so that it can be read back. -/
theorem displayable_actionAt (d : Direction) (actions : List String) (step : Nat) :
    Displayable (actionAt d actions step) := by
  unfold actionAt
  split
  · exact displayable_normalized _
  · exact displayable_endOfPlan

/-! ## Steps -/

/-- The texts of the actions of a plan in the order in which it is built. -/
def built (d : Direction) (actions : List String) : List String :=
  match d with
  | .forward => actions.map Plan.normalized
  | .backward => (actions.map Plan.normalized).reverse

theorem actionAt_eq (d : Direction) (actions : List String) (step : Nat) :
    actionAt d actions step = (built d actions)[step]?.getD endOfPlan := by
  cases d with
  | forward =>
    simp only [actionAt, built, List.getElem?_map]
    cases actions[step]? <;> rfl
  | backward =>
    simp only [actionAt, built, ← List.map_reverse, List.getElem?_map]
    cases actions.reverse[step]? <;> rfl

theorem length_built (d : Direction) (actions : List String) : (built d actions).length = actions.length := by
  cases d <;> simp [built]

theorem mem_built {d : Direction} {actions : List String} {a : String} :
    a ∈ built d actions ↔ ∃ action ∈ actions, Plan.normalized action = a := by
  cases d <;> simp [built]

theorem map_normalized_of_built {d : Direction} {as bs : List String} (h : built d as = built d bs) :
    as.map Plan.normalized = bs.map Plan.normalized := by
  cases d with
  | forward => exact h
  | backward => exact List.reverse_injective h

/-- Texts that are padded alike and do not contain the padding are the same. -/
theorem eq_of_getD_eq {α : Type} {xs ys : List α} {x : α} (hxs : x ∉ xs) (hys : x ∉ ys)
    (h : ∀ i < max xs.length ys.length, xs[i]?.getD x = ys[i]?.getD x) : xs = ys := by
  refine List.ext_getElem? fun i => ?_
  by_cases hi : i < max xs.length ys.length
  · have hget := h i hi
    cases hx : xs[i]? with
    | some a =>
      have ha : a ≠ x := fun heq => hxs (heq ▸ List.mem_of_getElem? hx)
      cases hy : ys[i]? with
      | some b => simpa [hx, hy] using hget
      | none =>
        rw [hx, hy] at hget
        exact absurd hget ha
    | none =>
      cases hy : ys[i]? with
      | some b =>
        have hb : x = b := by simpa [hx, hy] using hget
        exact absurd (List.mem_of_getElem? (hb ▸ hy)) hys
      | none => rfl
  · rw [List.getElem?_eq_none (by omega), List.getElem?_eq_none (by omega)]

/-! ## Contexts -/

/-- All plans at places in range are shown. -/
theorem Context.length_plansAt {live : List Nat} (h : ∀ p ∈ live, p < c.plans.size) :
    (c.plansAt live).length = live.length := by
  unfold plansAt
  rw [List.length_filterMap_eq_countP]
  refine List.countP_eq_length.2 fun p hp => ?_
  rw [Array.getElem?_eq_getElem (h p hp)]
  rfl

/-- The plans carry the digests of their actions, each digest once, and all choices are texts of actions. -/
structure Context.Identified (c : Context κ) : Prop where
  hash_eq : ∀ p ∈ c.plans, p.hash = some (Plan.fingerprint p.actions)
  distinct : (c.plans.toList.map fun p => Plan.fingerprint p.actions).Nodup
  chosen : ∀ landmark plan choice, c.choice landmark plan = some choice →
    ∃ action, choice.1 = Plan.normalized action

/-- Moreover, no action of a plan reads as the end of a plan. -/
structure Context.Proper (c : Context κ) : Prop extends c.Identified where
  unended : ∀ p ∈ c.plans, ∀ action ∈ p.actions, Plan.normalized action ≠ endOfPlan

/-- A chosen action is one of the actions of the plan. -/
theorem exists_of_firstAmong {achievers actions : List String} {position : Nat} {choice : String × Nat}
    (h : firstAmong achievers position actions = some choice) :
    ∃ action ∈ actions, choice.1 = Plan.normalized action := by
  induction actions generalizing position with
  | nil => cases h
  | cons action rest ih =>
    unfold firstAmong at h
    dsimp only at h
    split at h
    · obtain rfl := Option.some.inj h
      exact ⟨action, List.mem_cons_self, rfl⟩
    · obtain ⟨action', hmem, heq⟩ := ih h
      exact ⟨action', List.mem_cons_of_mem _ hmem, heq⟩

/-- What preparation has checked, and the context that it yields. -/
theorem exists_of_prepare (h : Context.prepare r = .ok (some c)) :
    ∃ domain, Domain.read r.task.domain = .ok domain ∧ r.landmarks.validate = .ok () ∧
      (∀ p ∈ r.plans, isSound domain p = true) ∧
      c = ⟨(Plan.distinct r.plans).toArray, r.landmarks,
        r.landmarks.landmarks.map (choicesFor (Plan.distinct r.plans).toArray)⟩ := by
  unfold Context.prepare at h
  obtain ⟨-, -, h⟩ := bind_eq_ok.1 h
  obtain ⟨domain, hdomain, h⟩ := bind_eq_ok.1 h
  split at h
  · rename_i hchecked
    obtain ⟨⟨hvalid, hplans⟩, -⟩ := (Bool.and_eq_true_iff.1 hchecked).imp Bool.and_eq_true_iff.1 id
    refine ⟨domain, hdomain, ?_, List.all_eq_true.1 hplans, (Option.some.inj (Except.ok.inj h)).symm⟩
    cases hvalidate : r.landmarks.validate with
    | ok _ => rfl
    | error e =>
      rw [hvalidate] at hvalid
      cases hvalid
  · cases h

/-- The landmarks of a prepared context form an order. -/
theorem validate_of_prepare (h : Context.prepare r = .ok (some c)) : c.graph.validate = .ok () := by
  obtain ⟨-, -, hvalid, -, rfl⟩ := exists_of_prepare h
  exact hvalid

/-- A request whose data belong together is prepared. -/
theorem prepare_eq {domain : Domain} (hpresent : r.task.requirePresent = .ok ())
    (hdomain : Domain.read r.task.domain = .ok domain) (hvalid : r.landmarks.validate = .ok ())
    (hsound : r.plans.all (isSound domain) = true) (hknown : r.landmarks.landmarks.all (isKnown domain) = true) :
    Context.prepare r = .ok (some ⟨(Plan.distinct r.plans).toArray, r.landmarks,
      r.landmarks.landmarks.map (choicesFor (Plan.distinct r.plans).toArray)⟩) := by
  have hchecked : (r.landmarks.validate.toOption.isSome && r.plans.all (isSound domain) &&
      r.landmarks.landmarks.all (isKnown domain)) = true := by
    rw [hvalid, hsound, hknown]
    rfl
  unfold Context.prepare
  rw [hpresent, hdomain]
  exact if_pos hchecked

/-- Plans of prepared contexts are told by their digests. -/
theorem identified_of_prepare (h : Context.prepare r = .ok (some c)) : c.Identified := by
  obtain ⟨domain, -, -, -, rfl⟩ := exists_of_prepare h
  refine ⟨fun p hp => ?_, ?_, fun landmark plan choice hchoice => ?_⟩
  · exact Plan.hash_of_mem_distinct (List.mem_toArray.1 hp)
  · exact Plan.nodup_distinct r.plans
  · obtain ⟨row, hrow, hget⟩ := Option.bind_eq_some_iff.1 (Option.join_eq_some_iff.1 hchoice)
    obtain ⟨before, after, hrows, -⟩ := List.lookup_eq_some_iff.1 hrow
    have hrows : r.landmarks.landmarks.map (choicesFor (Plan.distinct r.plans).toArray) =
        before ++ (landmark, row) :: after := hrows
    have hmem : (landmark, row) ∈ r.landmarks.landmarks.map (choicesFor (Plan.distinct r.plans).toArray) := by
      rw [hrows]
      simp
    obtain ⟨l, -, heq⟩ := List.mem_map.1 hmem
    obtain ⟨-, rfl⟩ := Prod.mk.inj heq
    rw [Array.getElem?_map] at hget
    obtain ⟨p, -, hfirst⟩ := Option.map_eq_some_iff.1 hget
    obtain ⟨action, -, htext⟩ := exists_of_firstAmong hfirst
    exact ⟨action, htext⟩

/-- Prepared contexts are proper, if no schema of the domain is named like the end of a plan. -/
theorem proper_of_prepare
    (hend : ∀ domain, Domain.read r.task.domain = .ok domain → ∀ s ∈ domain.schemas, s.name ≠ endOfPlan)
    (h : Context.prepare r = .ok (some c)) : c.Proper := by
  refine ⟨identified_of_prepare h, fun p hp action haction => ?_⟩
  obtain ⟨domain, hdomain, -, hsound, rfl⟩ := exists_of_prepare h
  obtain ⟨q, hq, hactions⟩ := Plan.exists_of_mem_distinct (List.mem_toArray.1 hp)
  have hbelongs := List.all_eq_true.1 (Bool.and_eq_true_iff.1 (hsound q hq)).2
  exact normalized_ne_endOfPlan (hend domain hdomain) (hbelongs action (hactions ▸ haction))

namespace Context.Identified

variable (h : c.Identified) {i j : Nat} {p : Plan κ}
include h

/-- The digest of a plan. -/
theorem hash_of_getElem? (hi : c.plans[i]? = some p) :
    p.hash = some (c.hash i) ∧ c.hash i = Plan.fingerprint p.actions := by
  have hhash := h.hash_eq p (Array.mem_of_getElem? hi)
  have heq : c.hash i = Plan.fingerprint p.actions := by
    rw [hash, hi, Option.bind_some, hhash, Option.getD_some]
  exact ⟨by rw [hhash, heq], heq⟩

/-- Plans are told by their digests. -/
theorem hash_injective (hi : i < c.plans.size) (hj : j < c.plans.size) (heq : c.hash i = c.hash j) : i = j := by
  have hget {k : Nat} (hk : k < c.plans.size) :
      (c.plans.toList.map fun p => Plan.fingerprint p.actions)[k]? = some (c.hash k) := by
    rw [List.getElem?_map, Array.getElem?_toList, Array.getElem?_eq_getElem hk, Option.map_some,
      (h.hash_of_getElem? (Array.getElem?_eq_getElem hk)).2]
  refine (List.getElem?_inj (by simpa using hi) h.distinct).1 ?_
  rw [hget hi, hget hj, heq]

/-- The plans at some of the places that are shown are those with the digests of these places. -/
theorem plansAt_filter {live base : List Nat} (hlive : ∀ p ∈ live, p < c.plans.size)
    (hbase : ∀ p ∈ base, p < c.plans.size) : c.plansAt (live.filter base.contains) =
      (c.plansAt live).filter fun p => p.hash.any (base.map c.hash).contains := by
  unfold plansAt
  rw [List.filter_filterMap, List.filterMap_filter]
  refine List.filterMap_congr fun i hi => ?_
  have hlt := hlive i hi
  have hget : c.plans[i]? = some c.plans[i] := Array.getElem?_eq_getElem hlt
  have hiff : c.hash i ∈ base.map c.hash ↔ i ∈ base := by
    constructor
    · intro hmem
      obtain ⟨j, hj, hhash⟩ := List.mem_map.1 hmem
      rwa [← h.hash_injective (hbase j hj) hlt hhash]
    · exact fun hmem => List.mem_map_of_mem hmem
  rw [hget, Option.filter_some, (h.hash_of_getElem? hget).1, Option.any_some]
  by_cases hmem : i ∈ base
  · rw [if_pos (List.contains_iff_mem.2 hmem), if_pos (List.contains_iff_mem.2 (hiff.2 hmem))]
  · rw [if_neg fun hcontains => hmem (List.contains_iff_mem.1 hcontains),
      if_neg fun hshown => hmem (hiff.1 (List.contains_iff_mem.1 hshown))]

/-- A choice for a landmark is shown so that it can be read back. -/
theorem displayable_achiever (landmark plan : Nat) : Displayable (c.achiever landmark plan) := by
  unfold achiever
  cases hchoice : c.choice landmark plan with
  | none => exact displayable_notAchieved
  | some choice =>
    obtain ⟨action, heq⟩ := h.chosen landmark plan choice hchoice
    rw [Option.map_some, Option.getD_some, heq]
    exact displayable_normalized action

end Context.Identified

namespace Context.Proper

variable (h : c.Proper) {i j : Nat}
include h

/-- No action of a plan reads as the end of the plan. -/
theorem endOfPlan_not_mem_built (d : Direction) (hi : i < c.plans.size) : endOfPlan ∉ built d (c.actions i) := by
  intro hmem
  obtain ⟨action, haction, heq⟩ := mem_built.1 hmem
  rw [actions, Array.getElem?_eq_getElem hi] at haction
  exact h.unended _ (Array.getElem_mem hi) action haction heq

/-- Different plans differ at a step, whichever way they are built. -/
theorem exists_actionAt_ne (d : Direction) (hi : i < c.plans.size) (hj : j < c.plans.size) (hne : i ≠ j) :
    ∃ step < max (c.actions i).length (c.actions j).length,
      actionAt d (c.actions i) step ≠ actionAt d (c.actions j) step := by
  by_contra hnone
  push Not at hnone
  have hbuilt : built d (c.actions i) = built d (c.actions j) := by
    refine eq_of_getD_eq (h.endOfPlan_not_mem_built d hi) (h.endOfPlan_not_mem_built d hj) fun step hstep => ?_
    rw [length_built, length_built] at hstep
    rw [← actionAt_eq, ← actionAt_eq]
    exact hnone step hstep
  refine hne (h.hash_injective hi hj ?_)
  obtain ⟨-, hi'⟩ := h.hash_of_getElem? (Array.getElem?_eq_getElem hi)
  obtain ⟨-, hj'⟩ := h.hash_of_getElem? (Array.getElem?_eq_getElem hj)
  have hactions {k : Nat} (hk : k < c.plans.size) : c.actions k = c.plans[k].actions := by
    rw [actions, Array.getElem?_eq_getElem hk, Option.map_some, Option.getD_some]
  rw [hi', hj', ← hactions hi, ← hactions hj]
  exact Plan.fingerprint_congr (map_normalized_of_built hbuilt)

end Context.Proper

end Waymark.View
