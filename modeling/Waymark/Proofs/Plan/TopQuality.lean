import Mathlib.Data.Set.Card
import Mathlib.Tactic
import Waymark.Proofs.Plan.Simple

/-!
# Top-quality search lists the best simple plans

With exact costs, none of them negative, a search comes to an end by itself, and what it lists are simple
plans, the cheapest first. Unless it has met its limit it lists as many as are wanted, or all that are
within the bound that the best one sets.

* `Bounds.ratio`, `goodPlans`: the simple plans within a bound;
* `respects_reaches`: the bound goes by costs as numbers;
* `simplePlans`: all simple plans of a task, in a list;
* `search_topQuality`: what a search lists.
-/

namespace Waymark.Plan

open Ground Number Task

variable {t : Ground.Task Exact} {p g : Exact × Node} {is : List Nat}

/-! ## Bounds -/

/-- How many times the best cost a plan may cost. -/
def Bounds.ratio (b : Bounds Exact) : ℚ := match b.quality with
  | .number q => max q 1
  | .undefined => 1

theorem Bounds.one_le_ratio (b : Bounds Exact) : 1 ≤ b.ratio := by
  unfold ratio
  split
  · exact le_max_right _ _
  · exact le_refl _

theorem Bounds.factor_eq (b : Bounds Exact) : b.factor = .number b.ratio := by
  unfold factor ratio
  cases hq : b.quality with
  | undefined => rfl
  | number q =>
    show Scale.max (Exact.number q) (Scale.ofNat 1) = .number (max q 1)
    have hone : (Scale.ofNat 1 : Exact) = .number 1 := rfl
    rw [hone, Scale.max]
    by_cases hlt : q < 1
    · rw [if_pos (Exact.lt_number_iff.2 hlt), max_eq_right hlt.le]
    · rw [if_neg fun h => hlt (Exact.lt_number_iff.1 h), max_eq_left (not_lt.1 hlt)]

/-- The largest cost that a bound allows if the best cost is known. -/
def Bounds.ceiling (b : Bounds Exact) (best : ℚ) : ℚ := best * b.ratio + 1 / 10 ^ 9

theorem Bounds.excludes_number_iff {b : Bounds Exact} {best cost : ℚ} :
    b.excludes (.number best) (.number cost) = true ↔ b.ceiling best < cost := by
  have htolerance : (tolerance : Exact) = .number (1 / 10 ^ 9) := by
    show Exact.number (mkRat 1 1000000000) = _
    rw [Rat.mkRat_eq_div]
    norm_num
  rw [excludes, factor_eq, htolerance, Exact.mul_number, Exact.add_number, Exact.lt_number_iff]
  rfl

theorem Bounds.le_ceiling {b : Bounds Exact} {best : ℚ} (h : 0 ≤ best) : best ≤ b.ceiling best := by
  have hmul : best ≤ best * b.ratio := le_mul_of_one_le_right h b.one_le_ratio
  have htolerance : (0 : ℚ) ≤ 1 / 10 ^ 9 := by positivity
  exact hmul.trans (le_add_of_nonneg_right htolerance)

/-- The simple plans that cost no more than a bound allows. -/
def goodPlans (t : Ground.Task Exact) (b : Bounds Exact) (best : ℚ) : Set (List Nat) :=
  {is | IsSimplePlan t is ∧ totalCost t is ≤ b.ceiling best}

theorem respects_reaches (ht : NonnegativeCosts t) (b : Bounds Exact) : b.Respects (Reaches t) where
  mono {best c p} hp hle hexcluded := by
    rw [hp.cost] at hle ⊢
    cases best with
    | undefined => cases hexcluded
    | number best =>
      cases c with
      | undefined => exact absurd rfl hle
      | number c =>
        rw [Bounds.excludes_number_iff] at hexcluded ⊢
        exact hexcluded.trans_le (Exact.order_number_ne_gt_iff.1 hle)
  self {p} hp hexcluded := by
    rw [hp.cost, Bounds.excludes_number_iff] at hexcluded
    exact hexcluded.not_ge (Bounds.le_ceiling (totalCost_nonneg ht _))

/-! ## All simple plans -/

theorem reaches_of_mem_reachableGoals (ht : NonnegativeCosts t) (hg : g ∈ reachableGoals t) :
    Reaches t g ∧ t.isGoal g.2.state = true := by
  have hall := (ranked_nodeWalk ht).forall_goalsBelow (P := fun _ => True) reaches_start trivial
    (fun _ _ _ _ _ _ => trivial) g hg
  exact ⟨hall.1, hall.2.1⟩

/-- The plan of a node, in the order in which it is carried out. -/
def inOrder (g : Exact × Node) : List Nat := g.2.actions.reverse

/-- The simple plans of a task. -/
def simplePlans (t : Ground.Task Exact) : List (List Nat) := (reachableGoals t).map inOrder

theorem mem_simplePlans (ht : NonnegativeCosts t) : is ∈ simplePlans t ↔ IsSimplePlan t is := by
  constructor
  · intro his
    obtain ⟨g, hg, rfl⟩ := List.mem_map.1 his
    obtain ⟨hreaches, hgoal⟩ := reaches_of_mem_reachableGoals ht hg
    exact hreaches.isSimplePlan hgoal
  · intro hplan
    have hempty : IsSimplePlan t ((Node.start t).actions.reverse ++ is) := hplan
    obtain ⟨g, hg, hactions⟩ := Reaches.exists_mem_goalsBelow ht reaches_start hempty
    exact List.mem_map.2 ⟨g, hg, hactions⟩

theorem nodup_simplePlans (ht : NonnegativeCosts t) : (simplePlans t).Nodup := by
  have hactions : ((reachableGoals t).map (·.2.actions)).Nodup := Reaches.nodup_goalsBelow ht reaches_start
  have hreversed := hactions.map List.reverse_injective
  rwa [List.map_map] at hreversed

/-! ## The result -/

/-- A simple plan as a search lists it: the names of its actions, and its cost. -/
def listed (t : Ground.Task Exact) (is : List Nat) : Plan Exact :=
  { actions := is.map t.actionName, cost := .number (totalCost t is) }

/-- The search lists some simple plans and leaves others out. -/
structure Lists (t : Ground.Task Exact) (b : Bounds Exact) (ps others : List (List Nat)) : Prop where
  search : (search t b).1 = ps.map (listed t)
  perm : (ps ++ others).Perm (simplePlans t)
  sorted : ps.Pairwise fun p q => totalCost t p ≤ totalCost t q
  length_le : ps.length ≤ b.maxPlans
  within : ∀ p ∈ ps, ∃ q, ps.head? = some q ∧ totalCost t p ≤ b.ceiling (totalCost t q)
  cheapest : (Plan.search t b).2 ≠ .limit → ∀ p ∈ ps, ∀ q ∈ others, totalCost t p ≤ totalCost t q
  complete : (Plan.search t b).2 ≠ .limit → ps.length = b.maxPlans ∨
    ∀ p ∈ others, ∃ q, ps.head? = some q ∧ b.ceiling (totalCost t q) < totalCost t p

/-- What the best cost excludes, the cost of the first plan found excludes. -/
theorem any_excludes_iff {b : Bounds Exact} {found : List (Exact × Node)}
    (hfound : ∀ g ∈ found, g.1 = .number (totalCost t (inOrder g))) {g : Exact × Node}
    (hg : g.1 = .number (totalCost t (inOrder g))) :
    (bestAfter none found).any (b.excludes · g.1) = true ↔
      ∃ q, (found.map inOrder).head? = some q ∧ b.ceiling (totalCost t q) < totalCost t (inOrder g) := by
  cases found with
  | nil => simp [bestAfter]
  | cons f fs =>
    rw [hg]
    show b.excludes f.1 _ = true ↔ _
    rw [hfound f List.mem_cons_self, Bounds.excludes_number_iff]
    simp

theorem exists_lists (ht : NonnegativeCosts t) (b : Bounds Exact) : ∃ ps others, Lists t b ps others := by
  obtain ⟨found, rest, hfound, henum⟩ := (ranked_nodeWalk ht).enumerates_run (respects_reaches ht b)
    b.maxPlans b.maxExpansions none [(Scale.ofNat 0, .start t)] (by simpa using reaches_start)
    (List.pairwise_singleton _ _)
  rw [← search_eq_run_node] at hfound henum
  have hperm : (found ++ rest).Perm (reachableGoals t) :=
    henum.perm.trans (.of_eq (List.flatMap_singleton ..))
  have hreaches : ∀ g ∈ found ++ rest, g.1 = .number (totalCost t (inOrder g)) := fun g hg =>
    (reaches_of_mem_reachableGoals ht (hperm.mem_iff.1 hg)).1.cost
  have hfoundCost := fun g hg => hreaches g (List.mem_append_left _ hg)
  have hrestCost := fun g hg => hreaches g (List.mem_append_right _ hg)
  have hexcluded {g : Exact × Node} (hg : g.1 = .number (totalCost t (inOrder g))) :=
    any_excludes_iff (b := b) hfoundCost hg
  refine ⟨found.map inOrder, rest.map inOrder, ?_⟩
  refine ⟨?search, ?perm, ?sorted, ?length, ?within, ?cheapest, ?complete⟩
  case search =>
    rw [hfound, List.map_map]
    refine List.map_congr_left fun g hg => ?_
    show g.2.plan t g.1 = listed t g.2.actions.reverse
    rw [Node.plan, hfoundCost g hg]
    rfl
  case perm =>
    rw [← List.map_append]
    exact hperm.map inOrder
  case sorted =>
    refine List.pairwise_map.2 (henum.sorted.imp_of_mem fun {g g'} hg hg' hle => ?_)
    rw [hfoundCost g hg, hfoundCost g' hg'] at hle
    exact Exact.order_number_ne_gt_iff.1 hle
  case length => exact (List.length_map ..).trans_le henum.length_le
  case within =>
    intro p hp
    obtain ⟨g, hg, rfl⟩ := List.mem_map.1 hp
    have hwithin := henum.within g hg
    rw [hexcluded (hfoundCost g hg)] at hwithin
    cases found with
    | nil => cases hg
    | cons f fs => exact ⟨inOrder f, rfl, not_lt.1 fun hlt => hwithin ⟨inOrder f, rfl, hlt⟩⟩
  case cheapest =>
    intro hending p hp q hq
    obtain ⟨g, hg, rfl⟩ := List.mem_map.1 hp
    obtain ⟨r, hr, rfl⟩ := List.mem_map.1 hq
    have hle := henum.cheapest hending g hg r hr
    rw [hfoundCost g hg, hrestCost r hr] at hle
    exact Exact.order_number_ne_gt_iff.1 hle
  case complete =>
    intro hending
    rw [List.length_map]
    refine (henum.complete hending).imp_right fun hrest p hp => ?_
    obtain ⟨r, hr, rfl⟩ := List.mem_map.1 hp
    exact (hexcluded (hrestCost r hr)).1 (hrest r hr)

namespace Lists

variable {b : Bounds Exact} {ps others : List (List Nat)} {best : ℚ}

theorem mem_iff (h : Lists t b ps others) (ht : NonnegativeCosts t) :
    IsSimplePlan t is ↔ is ∈ ps ∨ is ∈ others := by
  rw [← mem_simplePlans ht, ← h.perm.mem_iff, List.mem_append]

theorem nodup (h : Lists t b ps others) (ht : NonnegativeCosts t) : ps.Nodup :=
  (List.nodup_append.1 (h.perm.nodup_iff.2 (nodup_simplePlans ht))).1

/-- The first plan of a search that has not met its limit is a best one. -/
theorem cost_head (h : Lists t b ps others) (ht : NonnegativeCosts t)
    (hending : (Plan.search t b).2 ≠ .limit)
    (hbest : IsLeast (totalCost t '' {is | IsSimplePlan t is}) best) {q : List Nat}
    (hq : ps.head? = some q) : totalCost t q = best := by
  obtain ⟨qs, rfl⟩ := List.head?_eq_some_iff.1 hq
  have hmem : IsSimplePlan t q := (h.mem_iff ht).2 (.inl List.mem_cons_self)
  refine le_antisymm ?_ (hbest.2 (Set.mem_image_of_mem _ hmem))
  obtain ⟨p, hp, rfl⟩ := hbest.1
  rcases (h.mem_iff ht).1 hp with hp | hp
  · rcases List.mem_cons.1 hp with rfl | hp
    · exact le_refl _
    · exact (List.pairwise_cons.1 h.sorted).1 p hp
  · exact h.cheapest hending q List.mem_cons_self p hp

/-- A search that has not met its limit lists good plans only. -/
theorem mem_goodPlans (h : Lists t b ps others) (ht : NonnegativeCosts t)
    (hending : (Plan.search t b).2 ≠ .limit)
    (hbest : IsLeast (totalCost t '' {is | IsSimplePlan t is}) best) : ∀ p ∈ ps, p ∈ goodPlans t b best := by
  intro p hp
  obtain ⟨q, hq, hle⟩ := h.within p hp
  rw [h.cost_head ht hending hbest hq] at hle
  exact ⟨(h.mem_iff ht).2 (.inl hp), hle⟩

/-- A search that has not met its limit lists as many plans as are wanted, or all good ones. -/
theorem length_eq_min (h : Lists t b ps others) (ht : NonnegativeCosts t)
    (hending : (Plan.search t b).2 ≠ .limit)
    (hbest : IsLeast (totalCost t '' {is | IsSimplePlan t is}) best) :
    ps.length = min b.maxPlans (goodPlans t b best).ncard := by
  have hlisted := h.mem_goodPlans ht hending hbest
  have hcard : ps.toFinset.card = ps.length := List.toFinset_card_of_nodup (h.nodup ht)
  have hfinite : (goodPlans t b best).Finite :=
    (simplePlans t).finite_toSet.subset fun p hp => (mem_simplePlans ht).2 hp.1
  have hle : ps.length ≤ (goodPlans t b best).ncard := by
    rw [← hcard, ← Set.ncard_coe_finset]
    exact Set.ncard_le_ncard (fun p hp => hlisted p (by simpa using hp)) hfinite
  rcases h.complete hending with hlength | hothers
  · rw [hlength] at hle ⊢
    exact (min_eq_left hle).symm
  · have hall : goodPlans t b best = ps.toFinset := by
      ext p
      rw [Finset.mem_coe, List.mem_toFinset]
      refine ⟨fun hp => ?_, hlisted p⟩
      refine ((h.mem_iff ht).1 hp.1).resolve_right fun hother => ?_
      obtain ⟨q, hq, hlt⟩ := hothers p hother
      rw [h.cost_head ht hending hbest hq] at hlt
      exact hlt.not_ge hp.2
    rw [hall, Set.ncard_coe_finset, hcard]
    exact (min_eq_right h.length_le).symm

end Lists

/-- **Top-quality search is sound, complete and ordered by cost.** If no cost is negative, the simple plans
of a task are finitely many and the search ends by itself. It lists simple plans, each once, in the order
of cost. Unless it has met its limit these are as many as are wanted of those within the bound, and none
that it leaves out is cheaper. -/
theorem search_topQuality (t : Ground.Task Exact) (b : Bounds Exact) (ht : NonnegativeCosts t) :
    {is | IsSimplePlan t is}.Finite ∧
    (∃ n, ∀ b : Bounds Exact, n ≤ b.maxExpansions → (search t b).2 ≠ .limit) ∧
    ∃ ps : List (List Nat), (search t b).1 = ps.map (listed t) ∧ ps.Nodup ∧
      (∀ p ∈ ps, IsSimplePlan t p) ∧ (ps.Pairwise fun p q => totalCost t p ≤ totalCost t q) ∧
      ((search t b).2 ≠ .limit → ∀ best, IsLeast (totalCost t '' {is | IsSimplePlan t is}) best →
        (∀ p ∈ ps, p ∈ goodPlans t b best) ∧ ps.length = min b.maxPlans (goodPlans t b best).ncard ∧
        ∀ q ∈ goodPlans t b best, q ∉ ps → ∀ p ∈ ps, totalCost t p ≤ totalCost t q) := by
  refine ⟨?finite, ?ends, ?lists⟩
  case finite => exact (simplePlans t).finite_toSet.subset fun p hp => (mem_simplePlans ht).2 hp
  case ends =>
    refine ⟨(nodeWalk t).workBelow (room t) (Scale.ofNat 0, .start t), fun b hb => ?_⟩
    rw [search_eq_run_node]
    refine (ranked_nodeWalk ht).run_ne_limit _ _ none _ (by simpa using reaches_start) ?_
    simpa using hb
  case lists =>
    obtain ⟨ps, others, h⟩ := exists_lists ht b
    refine ⟨ps, h.search, h.nodup ht, fun p hp => (h.mem_iff ht).2 (.inl hp), h.sorted, ?_⟩
    intro hending best hbest
    refine ⟨h.mem_goodPlans ht hending hbest, h.length_eq_min ht hending hbest, fun q hq hnew p hp => ?_⟩
    exact h.cheapest hending p hp q (((h.mem_iff ht).1 hq.1).resolve_left hnew)

/-- A river with a bridge, which is dear, and a ferry, which is cheap. -/
def river : Ground.Task Exact where
  facts := (FactTable.empty.push "(here)" (by simp [FactTable.empty])).push "(there)"
    (by simp [FactTable.push, FactTable.empty])
  init := [0]
  actions := #[⟨"(walk)", [0], [], [1], [0], [], .number 3⟩,
    ⟨"(sail)", [0], [], [1], [0], [], .number 2⟩]
  goalNeeds := [1]
  goalForbids := []

theorem nonnegativeCosts_river : NonnegativeCosts river := by
  intro a ha
  rcases (by simpa [river] using ha : a = _ ∨ a = _) with rfl | rfl
  · exact ⟨3, by norm_num, rfl⟩
  · exact ⟨2, by norm_num, rfl⟩

theorem search_topQuality_river :
    NonnegativeCosts river ∧ IsSimplePlan river [0] ∧ IsSimplePlan river [1] ∧
    ∃ n, ∀ quality : Exact, (search river ⟨quality, 2, n⟩).2 ≠ .limit ∧
      ∃ ps : List (List Nat), (search river ⟨quality, 2, n⟩).1 = ps.map (listed river) ∧
        ∀ p ∈ ps, IsSimplePlan river p := by
  refine ⟨nonnegativeCosts_river, ?_, ?_, ?_⟩
  · exact ⟨[river.initialState, ⟨#[2]⟩], ⟨rfl, _, rfl, rfl⟩, by decide, by decide⟩
  · exact ⟨[river.initialState, ⟨#[2]⟩], ⟨rfl, _, rfl, rfl⟩, by decide, by decide⟩
  · obtain ⟨-, ⟨n, hn⟩, -⟩ := search_topQuality river .usual nonnegativeCosts_river
    refine ⟨n, fun quality => ⟨hn _ (le_refl n), ?_⟩⟩
    obtain ⟨ps, hps, -, hplans, -⟩ :=
      (search_topQuality river ⟨quality, 2, n⟩ nonnegativeCosts_river).2.2
    exact ⟨ps, hps, hplans⟩

end Waymark.Plan
