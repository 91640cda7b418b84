import Waymark.Proofs.Number.Rounding
import Waymark.Proofs.Plan.Walk

/-!
# Bounds only cut a search off

A search that may list fewer plans, continue fewer nodes or go less far beyond the best cost makes the same
moves as one that may do more, until it ends. So its list is the beginning of the other's.

* `Walk.run_take`: the list of fewer plans, for any search over a queue;
* `Walk.Narrows`, `Walk.run_isPrefix`: a search under a tighter bound on costs, with fewer expansions;
* `search_truncates`: searches of ground tasks.
-/

namespace Waymark.Plan

open Ground Number

section Walks

variable {κ σ : Type} [Scale κ] {w : Walk κ σ} {b b' : Bounds κ}

theorem mem_enqueueAll {q xs : List (κ × σ)} {p : κ × σ} : p ∈ enqueueAll q xs ↔ p ∈ q ∨ p ∈ xs := by
  induction xs generalizing q with
  | nil => simp [enqueueAll]
  | cons x xs ih =>
    show p ∈ enqueueAll (enqueue Prod.fst x q) xs ↔ _
    rw [ih, (enqueue_perm ..).mem_iff, List.mem_cons, List.mem_cons]
    tauto

/-- A search that wants fewer plans lists as many of those that it would list otherwise. -/
theorem Walk.run_take (h : b'.excludes = b.excludes) {plans plans' : Nat} (hplans : plans ≤ plans')
    (expansions : Nat) (best : Option κ) (q : List (κ × σ)) :
    (w.run b plans expansions best q).1 = (w.run b' plans' expansions best q).1.take plans := by
  fun_induction Walk.run w b plans expansions best q generalizing plans' with
  | case1 => rfl
  | case2 =>
    obtain ⟨plans', rfl⟩ := Nat.exists_eq_add_of_le' (Nat.zero_lt_of_lt hplans)
    rw [Walk.run_nil]
    rfl
  | case3 _ _ _ _ _ _ hexcluded =>
    obtain ⟨plans', rfl⟩ := Nat.exists_eq_add_of_le' (Nat.zero_lt_of_lt hplans)
    rw [Walk.run_excluded (h ▸ hexcluded)]
    rfl
  | case4 _ _ _ _ _ _ hexcluded hx found ending hfound ih =>
    obtain ⟨plans', rfl⟩ := Nat.exists_eq_add_of_le' (Nat.zero_lt_of_lt hplans)
    rw [Walk.run_goal (h ▸ hexcluded) hx, List.take_succ_cons, ← ih (Nat.le_of_succ_le_succ hplans), hfound]
  | case5 _ _ _ _ _ hexcluded hx =>
    obtain ⟨plans', rfl⟩ := Nat.exists_eq_add_of_le' (Nat.zero_lt_of_lt hplans)
    rw [Walk.run_limit (h ▸ hexcluded) hx]
    rfl
  | case6 _ _ _ _ _ hexcluded hx expansions ih =>
    obtain ⟨plans', rfl⟩ := Nat.exists_eq_add_of_le' (Nat.zero_lt_of_lt hplans)
    rw [Walk.run_next (h ▸ hexcluded) hx]
    exact ih hplans

/-- The first bound excludes what the second one excludes, among the costs that a search meets. -/
structure Walk.Narrows (w : Walk κ σ) (P : κ → Prop) (b b' : Bounds κ) : Prop where
  next : ∀ {cost x}, P cost → ∀ p ∈ w.next cost x, P p.1
  excludes : ∀ {best c}, P best → b'.excludes best c = true → b.excludes best c = true

theorem Walk.narrows_of_excludes_eq (h : b'.excludes = b.excludes) : w.Narrows (fun _ => True) b b' where
  next _ _ _ := trivial
  excludes _ hexcluded := h ▸ hexcluded

/-- A search under a tighter bound and a smaller limit lists the beginning of what it would list
otherwise. -/
theorem Walk.Narrows.run_isPrefix {P : κ → Prop} (h : w.Narrows P b b') {expansions expansions' : Nat}
    (hexpansions : expansions ≤ expansions') {plans : Nat} {best : Option κ} {q : List (κ × σ)}
    (hbest : ∀ c ∈ best, P c) (hq : ∀ p ∈ q, P p.1) :
    (w.run b plans expansions best q).1 <+: (w.run b' plans expansions' best q).1 := by
  -- What the wider search goes on from, the narrower one has not excluded either.
  have hadmitted {best : Option κ} {cost : κ} (hbest : ∀ c ∈ best, P c)
      (hexcluded : ¬ best.any (b.excludes · cost) = true) : ¬ best.any (b'.excludes · cost) = true := by
    rw [Option.any_eq_true] at hexcluded ⊢
    rintro ⟨c, hc, hcost⟩
    exact hexcluded ⟨c, hc, h.excludes (hbest c hc) hcost⟩
  fun_induction Walk.run w b plans expansions best q generalizing expansions' with
  | case1 => exact List.nil_prefix
  | case2 => exact List.nil_prefix
  | case3 => exact List.nil_prefix
  | case4 _ best _ cost _ _ hexcluded hx found ending hfound ih =>
    obtain ⟨hcost, hrest⟩ := List.forall_mem_cons.1 hq
    have hbest' : ∀ c ∈ best.or (some cost), P c := by
      cases best with
      | none => simpa using hcost
      | some best => exact hbest
    rw [Walk.run_goal (hadmitted hbest hexcluded) hx]
    have hprefix := ih hexpansions hbest' hrest
    rw [hfound] at hprefix
    exact List.cons_prefix_cons.2 ⟨rfl, hprefix⟩
  | case5 => exact List.nil_prefix
  | case6 _ _ _ _ rest hexcluded hx expansions ih =>
    obtain ⟨hcost, hrest⟩ := List.forall_mem_cons.1 hq
    obtain ⟨expansions', rfl⟩ := Nat.exists_eq_add_of_le' (Nat.zero_lt_of_lt hexpansions)
    rw [Walk.run_next (hadmitted hbest hexcluded) hx]
    refine ih (Nat.le_of_succ_le_succ hexpansions) hbest fun p hp => ?_
    exact (mem_enqueueAll.1 hp).elim (hrest p) (h.next hcost p)

end Walks

/-! ## Ground tasks -/

theorem exists_action_of_mem_successors {κ : Type} [Scale κ] {t : Ground.Task κ} {cost : κ} {n : Node}
    {p : κ × Node} (hp : p ∈ successors t cost n) : ∃ a ∈ t.actions, p.1 = Scale.add cost a.cost := by
  obtain ⟨i, -, hi⟩ := List.mem_filterMap.1 hp
  split at hi
  · rename_i a ha
    split at hi
    · dsimp only at hi
      split at hi
      · cases hi
      · cases hi
        exact ⟨a, Array.mem_of_getElem? ha, rfl⟩
    · cases hi
  · cases hi

section Ground

variable {t : Ground.Task Double} {b b' : Bounds Double}

theorem search_isPrefix {P : Double → Prop} (h : (nodeWalk t).Narrows P b b') (hzero : P (Scale.ofNat 0))
    (hplans : b.maxPlans = b'.maxPlans) (hexpansions : b.maxExpansions ≤ b'.maxExpansions) :
    (search t b).1 <+: (search t b').1 := by
  rw [search_eq_run_node, search_eq_run_node, hplans]
  exact h.run_isPrefix hexpansions (by simp) (by simpa using hzero)

/-- Smaller multiples of the best cost exclude more, if costs are not negative. -/
theorem narrows_of_factor_le (hcosts : ∀ a ∈ t.actions, Scale.le (Scale.ofNat 0) a.cost = true)
    (hb : Scale.isFinite b.quality = true) (hb' : Scale.isFinite b'.quality = true)
    (hle : Scale.le b.quality b'.quality = true) :
    (nodeWalk t).Narrows (fun c => Scale.le (Scale.ofNat 0) c = true) b b' where
  next {cost x} hcost p hp := by
    obtain ⟨a, ha, hp⟩ := exists_action_of_mem_successors hp
    rw [hp]
    exact Double.zero_le_add hcost (hcosts a ha)
  excludes {best c} hbest hexcluded := by
    have htolerance : Scale.le (Scale.ofNat 0) (tolerance : Double) = true := by rfl
    rw [Bounds.excludes, Bounds.factor, if_pos hb'] at hexcluded
    rw [Bounds.excludes, Bounds.factor, if_pos hb]
    exact Double.lt_of_factor_le hbest htolerance hb hb' hle hexcluded

end Ground

/-- **Bounds only truncate.** Wanting fewer plans, a search lists the first ones of the same list.
Continuing fewer nodes, it lists a beginning of the same list. So it does if the plans may cost a smaller
multiple of the best cost and no action has a negative cost. -/
theorem search_truncates (t : Ground.Task Double) (b : Bounds Double) :
    (∀ k₁ k₂, k₁ ≤ k₂ →
      (search t { b with maxPlans := k₁ }).1 = (search t { b with maxPlans := k₂ }).1.take k₁) ∧
    (∀ n₁ n₂, n₁ ≤ n₂ →
      (search t { b with maxExpansions := n₁ }).1 <+: (search t { b with maxExpansions := n₂ }).1) ∧
    ((∀ a ∈ t.actions, Scale.le (Scale.ofNat 0) a.cost = true) →
      ∀ q₁ q₂ : Double, Scale.isFinite q₁ = true → Scale.isFinite q₂ = true → Scale.le q₁ q₂ = true →
        (search t { b with quality := q₁ }).1 <+: (search t { b with quality := q₂ }).1) := by
  refine ⟨fun k₁ k₂ hk => ?plans, fun n₁ n₂ hn => ?expansions, fun hcosts q₁ q₂ h₁ h₂ hq => ?quality⟩
  case plans =>
    rw [search_eq_run_node, search_eq_run_node]
    exact Walk.run_take (by rfl) hk _ _ _
  case expansions =>
    exact search_isPrefix (Walk.narrows_of_excludes_eq rfl) trivial rfl hn
  case quality =>
    exact search_isPrefix (narrows_of_factor_le hcosts h₁ h₂ hq) rfl rfl le_rfl

/-- A door that is opened with a key, or with a crowbar at a higher cost. -/
def door : Ground.Task Double where
  facts := (FactTable.empty.push "(shut)" (by simp [FactTable.empty])).push "(open)"
    (by simp [FactTable.push, FactTable.empty])
  init := [0]
  actions := #[⟨"(unlock)", [0], [], [1], [0], [], Scale.ofNat 2⟩,
    ⟨"(force)", [0], [], [1], [0], [], Scale.ofNat 3⟩]
  goalNeeds := [1]
  goalForbids := []

theorem zero_le_cost_door : ∀ a ∈ door.actions, Scale.le (Scale.ofNat 0) a.cost = true := by
  intro a ha
  rcases (by simpa [door] using ha : a = _ ∨ a = _) with rfl | rfl <;> rfl

theorem search_truncates_door :
    (search door ⟨Scale.ofNat 2, 1, 10⟩).1 = (search door ⟨Scale.ofNat 2, 5, 10⟩).1.take 1 ∧
    (search door ⟨Scale.ofNat 2, 5, 0⟩).1 <+: (search door ⟨Scale.ofNat 2, 5, 10⟩).1 ∧
    (search door ⟨Scale.ofNat 1, 5, 10⟩).1 <+: (search door ⟨Scale.ofNat 2, 5, 10⟩).1 := by
  obtain ⟨hplans, hexpansions, hquality⟩ := search_truncates door ⟨Scale.ofNat 2, 5, 10⟩
  exact ⟨hplans 1 5 (by decide), hexpansions 0 10 (by decide),
    hquality zero_le_cost_door (Scale.ofNat 1) (Scale.ofNat 2) rfl rfl rfl⟩

end Waymark.Plan
