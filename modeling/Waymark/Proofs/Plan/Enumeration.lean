import Mathlib.Tactic
import Waymark.Proofs.Plan.Walk

/-!
# Searches enumerate goals

A search whose nodes lead on only finitely far, at costs that never fall, comes to every goal below the
queue, the cheapest first. What it has found when it ends is a beginning of a sorted list of all goals, and
unless it has met its limit it has left nothing out that is cheaper or within the bound.

* `Walk.goals`: the goals below a node;
* `Ranked`: a search whose nodes lead on finitely far at costs that never fall;
* `Enumerates`, `Ranked.enumerates_run`: what the plans of a search are among all goals;
* `Walk.work`, `Ranked.run_ne_limit`: how many nodes a search continues at most.
-/

namespace Waymark.Plan

open Number

variable {κ σ : Type}

/-! ## Costs in order -/

section Order

variable [Scale κ] [Std.TransCmp (Scale.order : κ → κ → Ordering)]

theorem order_ne_gt_trans {x y z : κ} (hxy : Scale.order x y ≠ .gt) (hyz : Scale.order y z ≠ .gt) :
    Scale.order x z ≠ .gt :=
  Ordering.isLE_iff_ne_gt.1
    (Std.TransCmp.isLE_trans (Ordering.isLE_iff_ne_gt.2 hxy) (Ordering.isLE_iff_ne_gt.2 hyz))

theorem order_self_ne_gt (x : κ) : Scale.order x x ≠ .gt := by
  have hself : (Scale.order : κ → κ → Ordering) x x = .eq := Std.ReflCmp.compare_self
  rw [hself]
  decide

end Order

/-! ## Goals below a node -/

/-- The goals that a node leads to in fewer than `depth` steps. A goal leads to itself only. -/
def Walk.goals (w : Walk κ σ) : Nat → κ × σ → List (κ × σ)
  | 0, _ => []
  | depth + 1, p => if w.isGoal p.2 then [p] else (w.next p.1 p.2).flatMap (w.goals depth)

/-- The number of nodes below a node, itself included, that are continued, in fewer than `depth` steps. -/
def Walk.work (w : Walk κ σ) : Nat → κ × σ → Nat
  | 0, _ => 0
  | depth + 1, p => if w.isGoal p.2 then 0 else ((w.next p.1 p.2).map (w.work depth)).sum + 1

variable [Scale κ]

/-- Nodes that keep `valid` lead on to such nodes of smaller height, at costs that are no smaller. -/
structure Ranked (w : Walk κ σ) (valid : κ × σ → Prop) (height : σ → Nat) : Prop where
  next : ∀ {p}, valid p → ¬ w.isGoal p.2 = true → ∀ p' ∈ w.next p.1 p.2, valid p'
  height : ∀ {p}, valid p → ¬ w.isGoal p.2 = true → ∀ p' ∈ w.next p.1 p.2, height p'.2 < height p.2
  cost : ∀ {p}, valid p → ¬ w.isGoal p.2 = true → ∀ p' ∈ w.next p.1 p.2, Scale.order p.1 p'.1 ≠ .gt

/-- All goals below a node. -/
def Walk.goalsBelow (w : Walk κ σ) (height : σ → Nat) (p : κ × σ) : List (κ × σ) :=
  w.goals (height p.2 + 1) p

/-- How many nodes below a node are continued. -/
def Walk.workBelow (w : Walk κ σ) (height : σ → Nat) (p : κ × σ) : Nat := w.work (height p.2 + 1) p

namespace Ranked

variable {w : Walk κ σ} {valid : κ × σ → Prop} {height : σ → Nat} {p g : κ × σ} {depth depth' : Nat}

/-- Depths beyond the height of a node make no difference. -/
theorem goals_eq (h : Ranked w valid height) (hp : valid p) (hdepth : height p.2 < depth)
    (hdepth' : height p.2 < depth') : w.goals depth p = w.goals depth' p := by
  induction depth generalizing p depth' with
  | zero => omega
  | succ depth ih =>
    obtain ⟨depth', rfl⟩ : ∃ n, depth' = n + 1 := ⟨depth' - 1, by omega⟩
    unfold Walk.goals
    by_cases hgoal : w.isGoal p.2 = true
    · rw [if_pos hgoal, if_pos hgoal]
    · rw [if_neg hgoal, if_neg hgoal]
      refine List.flatMap_congr fun p' hp' => ?_
      have hlt := h.height hp hgoal p' hp'
      exact ih (h.next hp hgoal p' hp') (by omega) (by omega)

theorem work_eq (h : Ranked w valid height) (hp : valid p) (hdepth : height p.2 < depth)
    (hdepth' : height p.2 < depth') : w.work depth p = w.work depth' p := by
  induction depth generalizing p depth' with
  | zero => omega
  | succ depth ih =>
    obtain ⟨depth', rfl⟩ : ∃ n, depth' = n + 1 := ⟨depth' - 1, by omega⟩
    unfold Walk.work
    by_cases hgoal : w.isGoal p.2 = true
    · rw [if_pos hgoal, if_pos hgoal]
    · rw [if_neg hgoal, if_neg hgoal]
      refine congrArg (·.sum + 1) (List.map_congr_left fun p' hp' => ?_)
      have hlt := h.height hp hgoal p' hp'
      exact ih (h.next hp hgoal p' hp') (by omega) (by omega)

omit [Scale κ] in
theorem goalsBelow_of_isGoal (hgoal : w.isGoal p.2 = true) : w.goalsBelow height p = [p] := by
  rw [Walk.goalsBelow, Walk.goals, if_pos hgoal]

theorem goalsBelow_next (h : Ranked w valid height) (hp : valid p) (hgoal : ¬ w.isGoal p.2 = true) :
    w.goalsBelow height p = (w.next p.1 p.2).flatMap (w.goalsBelow height) := by
  rw [Walk.goalsBelow, Walk.goals, if_neg hgoal]
  refine List.flatMap_congr fun p' hp' => ?_
  exact h.goals_eq (h.next hp hgoal p' hp') (h.height hp hgoal p' hp') (Nat.lt_succ_self _)

theorem workBelow_next (h : Ranked w valid height) (hp : valid p) (hgoal : ¬ w.isGoal p.2 = true) :
    w.workBelow height p = ((w.next p.1 p.2).map (w.workBelow height)).sum + 1 := by
  rw [Walk.workBelow, Walk.work, if_neg hgoal]
  refine congrArg (·.sum + 1) (List.map_congr_left fun p' hp' => ?_)
  exact h.work_eq (h.next hp hgoal p' hp') (h.height hp hgoal p' hp') (Nat.lt_succ_self _)

/-- A property of a node that its continuations keep holds of the goals below it. -/
theorem forall_goalsBelow (h : Ranked w valid height) {P : κ × σ → Prop} (hp : valid p) (hP : P p)
    (hnext : ∀ p, valid p → ¬ w.isGoal p.2 = true → P p → ∀ p' ∈ w.next p.1 p.2, P p') :
    ∀ g ∈ w.goalsBelow height p, valid g ∧ w.isGoal g.2 = true ∧ P g := by
  induction hn : height p.2 using Nat.strong_induction_on generalizing p with
  | _ n ih =>
    intro g hg
    by_cases hgoal : w.isGoal p.2 = true
    · rw [goalsBelow_of_isGoal hgoal] at hg
      obtain rfl := List.mem_singleton.1 hg
      exact ⟨hp, hgoal, hP⟩
    · rw [h.goalsBelow_next hp hgoal] at hg
      obtain ⟨p', hp', hg⟩ := List.mem_flatMap.1 hg
      have hlt := h.height hp hgoal p' hp'
      exact ih _ (hn ▸ hlt) (h.next hp hgoal p' hp') (hnext p hp hgoal hP p' hp') rfl g hg

variable [Std.TransCmp (Scale.order : κ → κ → Ordering)]

/-- The goals below a node cost no less than the node. -/
theorem cost_le_of_mem_goalsBelow (h : Ranked w valid height) (hp : valid p)
    (hg : g ∈ w.goalsBelow height p) : Scale.order p.1 g.1 ≠ .gt := by
  refine (h.forall_goalsBelow (P := fun g => Scale.order p.1 g.1 ≠ .gt) hp (order_self_ne_gt _) ?_
    g hg).2.2
  intro q hq hgoal hle q' hq'
  exact order_ne_gt_trans hle (h.cost hq hgoal q' hq')

end Ranked

/-! ## What is found -/

/-- The best cost that a search goes by once it has found something. -/
def bestAfter (best : Option κ) (found : List (κ × σ)) : Option κ := best.or (found.head?.map (·.1))

/-- The goals that were found come first in a sorted list of all goals: none is beyond the bound, and unless
the search has met its limit, no other goal is cheaper, and if there are fewer than wanted all others are
beyond the bound. -/
structure Enumerates (b : Bounds κ) (plans : Nat) (best : Option κ) (all found rest : List (κ × σ))
    (ending : Ending) : Prop where
  perm : (found ++ rest).Perm all
  sorted : Sorted found
  length_le : found.length ≤ plans
  within : ∀ g ∈ found, ¬ (bestAfter best found).any (b.excludes · g.1) = true
  cheapest : ending ≠ .limit → ∀ g ∈ found, ∀ r ∈ rest, Scale.order g.1 r.1 ≠ .gt
  complete : ending ≠ .limit → found.length = plans ∨
    ∀ r ∈ rest, (bestAfter best found).any (b.excludes · r.1) = true

/-- A search that ends at once has found nothing. -/
theorem Enumerates.nil {b : Bounds κ} {plans : Nat} {best : Option κ} {all : List (κ × σ)}
    {ending : Ending} (h : ending ≠ .limit → plans = 0 ∨
      ∀ r ∈ all, best.any (b.excludes · r.1) = true) : Enumerates b plans best all [] all ending where
  perm := .refl _
  sorted := .nil
  length_le := Nat.zero_le _
  within := by simp
  cheapest := by simp
  complete hending := by
    rw [bestAfter, List.head?_nil, Option.map_none, Option.or_none]
    exact (h hending).imp Eq.symm id

/-- A goal that is found first, before all others, which cost no less. -/
theorem Enumerates.cons {b : Bounds κ} {plans : Nat} {best : Option κ} {p : κ × σ}
    {all found rest : List (κ × σ)} {ending : Ending}
    (h : Enumerates b plans (best.or (some p.1)) all found rest ending)
    (hfirst : ∀ g ∈ all, Scale.order p.1 g.1 ≠ .gt)
    (hwithin : ¬ (best.or (some p.1)).any (b.excludes · p.1) = true) :
    Enumerates b (plans + 1) best (p :: all) (p :: found) rest ending := by
  have hbest : bestAfter (best.or (some p.1)) found = bestAfter best (p :: found) := by
    cases best <;> rfl
  refine ⟨h.perm.cons _, ?sorted, Nat.succ_le_succ h.length_le, ?within, ?cheapest, ?complete⟩
  case sorted =>
    refine List.pairwise_cons.2 ⟨fun g hg => ?_, h.sorted⟩
    exact hfirst g (h.perm.mem_iff.1 (List.mem_append_left _ hg))
  case within =>
    refine List.forall_mem_cons.2 ⟨?_, fun g hg => hbest ▸ h.within g hg⟩
    cases best with
    | none => exact hwithin
    | some best => exact hwithin
  case cheapest =>
    intro hending g hg r hr
    rcases List.mem_cons.1 hg with rfl | hg
    · exact hfirst r (h.perm.mem_iff.1 (List.mem_append_right _ hr))
    · exact h.cheapest hending g hg r hr
  case complete =>
    intro hending
    rw [← hbest]
    exact (h.complete hending).imp (congrArg (· + 1)) id

theorem enqueueAll_perm (q xs : List (κ × σ)) : (enqueueAll q xs).Perm (xs ++ q) := by
  induction xs generalizing q with
  | nil => rfl
  | cons x xs ih =>
    refine (ih (enqueue Prod.fst x q)).trans ?_
    exact ((enqueue_perm Prod.fst x q).append_left xs).trans List.perm_middle

section Run

variable {w : Walk κ σ} {valid : κ × σ → Prop} {height : σ → Nat} {b : Bounds κ}

theorem Ranked.valid_enqueueAll (h : Ranked w valid height) {p : κ × σ} {rest : List (κ × σ)}
    (hq : ∀ p' ∈ p :: rest, valid p') (hgoal : ¬ w.isGoal p.2 = true) :
    ∀ p' ∈ enqueueAll rest (w.next p.1 p.2), valid p' := by
  obtain ⟨hp, hrest⟩ := List.forall_mem_cons.1 hq
  intro p' hp'
  rcases List.mem_append.1 ((enqueueAll_perm ..).mem_iff.1 hp') with hp' | hp'
  · exact h.next hp hgoal p' hp'
  · exact hrest p' hp'

/-- Costs are compared with the bound as they are sorted, and no cost is beyond the bound that it sets. -/
structure Bounds.Respects (b : Bounds κ) (valid : κ × σ → Prop) : Prop where
  mono : ∀ {best c : κ} {p : κ × σ}, valid p → Scale.order c p.1 ≠ .gt → b.excludes best c = true →
    b.excludes best p.1 = true
  self : ∀ {p : κ × σ}, valid p → ¬ b.excludes p.1 p.1 = true

variable [Std.TransCmp (Scale.order : κ → κ → Ordering)]

/-- If the first node of a sorted queue is beyond the bound, so are all goals below the queue. -/
theorem Ranked.forall_excluded (h : Ranked w valid height) (hb : b.Respects valid) {p : κ × σ}
    {rest : List (κ × σ)} (hq : ∀ p' ∈ p :: rest, valid p') (hs : Sorted (p :: rest))
    {best : Option κ} (hexcluded : best.any (b.excludes · p.1) = true) :
    ∀ r ∈ (p :: rest).flatMap (w.goalsBelow height), best.any (b.excludes · r.1) = true := by
  intro r hr
  obtain ⟨p', hp', hr⟩ := List.mem_flatMap.1 hr
  cases best with
  | none => cases hexcluded
  | some best =>
    have hfirst : Scale.order p.1 p'.1 ≠ .gt := by
      rcases List.mem_cons.1 hp' with rfl | hp'
      · exact order_self_ne_gt _
      · exact (List.pairwise_cons.1 hs).1 p' hp'
    have hbelow := h.cost_le_of_mem_goalsBelow (hq p' hp') hr
    have hr' := (h.forall_goalsBelow (P := fun _ => True) (hq p' hp') trivial
      (fun _ _ _ _ _ _ => trivial) r hr).1
    exact hb.mono hr' (order_ne_gt_trans hfirst hbelow) hexcluded

/-! ### The end of a search -/

omit [Std.TransCmp (Scale.order : κ → κ → Ordering)] in
/-- A search that may continue as many nodes as there are below its queue does not meet its limit. -/
theorem Ranked.run_ne_limit (h : Ranked w valid height) (plans expansions : Nat) (best : Option κ)
    (q : List (κ × σ)) (hq : ∀ p ∈ q, valid p) (hwork : (q.map (w.workBelow height)).sum ≤ expansions) :
    (w.run b plans expansions best q).2 ≠ .limit := by
  fun_induction Walk.run w b plans expansions best q with
  | case1 =>
    intro hlimit
    cases hlimit
  | case2 =>
    intro hlimit
    cases hlimit
  | case3 =>
    intro hlimit
    cases hlimit
  | case4 expansions best plans cost x rest _ _ found ending hfound ih =>
    have hrest := (List.forall_mem_cons.1 hq).2
    rw [List.map_cons, List.sum_cons] at hwork
    have hending := ih hrest (by omega)
    rwa [hfound] at hending
  | case5 best plans cost x rest _ hgoal =>
    rw [List.map_cons, List.sum_cons, h.workBelow_next (hq _ List.mem_cons_self) hgoal] at hwork
    omega
  | case6 best plans cost x rest _ hgoal expansions ih =>
    refine ih (h.valid_enqueueAll hq hgoal) ?_
    have hstep : w.workBelow height (cost, x) =
        ((w.next cost x).map (w.workBelow height)).sum + 1 :=
      h.workBelow_next (hq _ List.mem_cons_self) hgoal
    rw [List.map_cons, List.sum_cons, hstep] at hwork
    have hperm := ((enqueueAll_perm rest (w.next cost x)).map (w.workBelow height)).sum_nat
    rw [List.map_append, List.sum_append] at hperm
    omega

/-- **A search enumerates the goals below its queue.** -/
theorem Ranked.enumerates_run (h : Ranked w valid height) (hb : b.Respects valid)
    (plans expansions : Nat) (best : Option κ) (q : List (κ × σ)) (hq : ∀ p ∈ q, valid p)
    (hs : Sorted q) :
    ∃ found rest, (w.run b plans expansions best q).1 = found.map (fun g => w.plan g.1 g.2) ∧
      Enumerates b plans best (q.flatMap (w.goalsBelow height)) found rest
        (w.run b plans expansions best q).2 := by
  -- The induction follows the loop; what waits in the queue is kept sorted, its goals are kept as they are.
  fun_induction Walk.run w b plans expansions best q with
  | case1 => exact ⟨[], _, rfl, .nil fun _ => .inl rfl⟩
  | case2 => exact ⟨[], _, rfl, .nil fun _ => .inr (by simp)⟩
  | case3 _ _ _ cost x rest hexcluded =>
    exact ⟨[], _, rfl, .nil fun _ => .inr (h.forall_excluded hb hq hs hexcluded)⟩
  | case4 expansions best plans cost x rest hexcluded hgoal found ending hfound ih =>
    obtain ⟨hx, hrest⟩ := List.forall_mem_cons.1 hq
    obtain ⟨hle, hsrest⟩ := List.pairwise_cons.1 hs
    rw [hfound] at ih
    obtain ⟨gs, others, rfl, henum⟩ := ih hrest hsrest
    -- The goal at hand costs no more than what is below the rest of the queue.
    have hfirst : ∀ g ∈ rest.flatMap (w.goalsBelow height), Scale.order cost g.1 ≠ .gt := by
      intro g hg
      obtain ⟨p, hp, hg⟩ := List.mem_flatMap.1 hg
      exact order_ne_gt_trans (hle p hp) (h.cost_le_of_mem_goalsBelow (hrest p hp) hg)
    have hwithin : ¬ (best.or (some cost)).any (b.excludes · cost) = true := by
      cases best with
      | none => exact hb.self hx
      | some best => exact hexcluded
    refine ⟨(cost, x) :: gs, others, rfl, ?_⟩
    rw [List.flatMap_cons, Ranked.goalsBelow_of_isGoal hgoal]
    exact henum.cons hfirst hwithin
  | case5 => exact ⟨[], _, rfl, .nil fun hending => absurd rfl hending⟩
  | case6 best plans cost x rest hexcluded hgoal expansions ih =>
    obtain ⟨hx, hrest⟩ := List.forall_mem_cons.1 hq
    have hsrest : Sorted rest := (List.pairwise_cons.1 hs).2
    obtain ⟨gs, others, hgs, henum⟩ := ih (h.valid_enqueueAll hq hgoal) (sorted_enqueueAll hsrest _)
    refine ⟨gs, others, hgs, { henum with perm := henum.perm.trans ?_ }⟩
    rw [List.flatMap_cons, h.goalsBelow_next hx hgoal, ← List.flatMap_append]
    exact (enqueueAll_perm rest _).flatMap_right _

end Run

end Waymark.Plan
