import Mathlib.Data.String.Basic
import Mathlib.Tactic
import Waymark.Proofs.Repetition
import Waymark.View.Context

/-!
# Groups of plans

The plans of one key make up a group, so groups are a partition.

* `keysOf_eq_of_perm`: the keys of plans in any order;
* `mem_groupBy`, `nodup_keys_groupBy`: the groups, and that their keys are distinct;
* `find?_groupBy`: the group of a key;
* `two_le_length_groupBy`: when there is more than one group, and `groupBy_pair` for two plans.
-/

namespace Waymark.View

variable {key : Nat → String} {plans : List Nat} {g : Group} {k : String}

/-- The keys of some plans, in ascending order. -/
def keysOf (key : Nat → String) (plans : List Nat) : List String :=
  ((plans.map key).mergeSort fun x y => !(y < x)).eraseReps

theorem groupBy_eq (key : Nat → String) (plans : List Nat) :
    groupBy key plans = (keysOf key plans).map fun k => ⟨k, plans.filter fun p => key p == k⟩ := rfl

theorem mem_keysOf : k ∈ keysOf key plans ↔ ∃ p ∈ plans, key p = k := by
  rw [keysOf, mem_eraseReps, List.mem_mergeSort, List.mem_map]

/-- The keys stand in strictly ascending order. -/
theorem pairwise_lt_keysOf (key : Nat → String) (plans : List Nat) : (keysOf key plans).Pairwise (· < ·) := by
  have hle (x y : String) : (!decide (y < x)) = true ↔ x ≤ y := by
    rw [Bool.not_eq_true', decide_eq_false_iff_not]
    exact not_lt
  have hsorted : ((plans.map key).mergeSort fun x y => !decide (y < x)).Pairwise
      fun x y => (!decide (y < x)) = true := by
    refine List.pairwise_mergeSort (fun x y z hxy hyz => ?_) (fun x y => ?_) _
    · exact (hle x z).2 (((hle x y).1 hxy).trans ((hle y z).1 hyz))
    · rw [Bool.or_eq_true, hle, hle]
      exact le_total x y
  exact pairwise_lt_eraseReps (hsorted.imp fun h => (hle _ _).1 h)

theorem nodup_keysOf (key : Nat → String) (plans : List Nat) : (keysOf key plans).Nodup :=
  (pairwise_lt_keysOf key plans).imp ne_of_lt

/-- The keys do not depend on the order of the plans. -/
theorem keysOf_eq_of_perm {key' : Nat → String} {plans' : List Nat} (h : (plans'.map key').Perm (plans.map key)) :
    keysOf key' plans' = keysOf key plans := by
  refine (pairwise_lt_keysOf key' plans').eq_of_mem_iff (pairwise_lt_keysOf key plans) fun k => ?_
  rw [mem_keysOf, mem_keysOf, ← List.mem_map, ← List.mem_map, h.mem_iff]

/-- A group is made of all plans of its key, and there is such a plan. -/
theorem mem_groupBy : g ∈ groupBy key plans ↔
    (∃ p ∈ plans, key p = g.key) ∧ g.plans = plans.filter fun p => key p == g.key := by
  rw [groupBy_eq, List.mem_map]
  constructor
  · rintro ⟨k, hk, rfl⟩
    exact ⟨mem_keysOf.1 hk, rfl⟩
  · rintro ⟨hk, hplans⟩
    exact ⟨g.key, mem_keysOf.2 hk, by rw [← hplans]⟩

theorem map_key_groupBy (key : Nat → String) (plans : List Nat) :
    (groupBy key plans).map (·.key) = keysOf key plans := by
  rw [groupBy_eq, List.map_map]
  exact List.map_id _

/-- No two groups have the same key. -/
theorem nodup_keys_groupBy (key : Nat → String) (plans : List Nat) : ((groupBy key plans).map (·.key)).Nodup := by
  rw [map_key_groupBy]
  exact nodup_keysOf key plans

/-- The plans of a group are those of its key. -/
theorem mem_plans_of_mem_groupBy (hg : g ∈ groupBy key plans) {p : Nat} :
    p ∈ g.plans ↔ p ∈ plans ∧ key p = g.key := by
  rw [(mem_groupBy.1 hg).2, List.mem_filter, beq_iff_eq]

/-- The group of a key is found by it. -/
theorem find?_groupBy : (groupBy key plans).find? (·.key = k) = some g ↔ g ∈ groupBy key plans ∧ g.key = k :=
  find?_eq_some_of_nodup (nodup_keys_groupBy key plans)

/-- Every plan is in the group of its key. -/
theorem exists_group (key : Nat → String) {p : Nat} (hp : p ∈ plans) :
    ∃ g ∈ groupBy key plans, g.key = key p ∧ p ∈ g.plans :=
  ⟨⟨key p, plans.filter fun q => key q == key p⟩, mem_groupBy.2 ⟨⟨p, hp, rfl⟩, rfl⟩, rfl,
    List.mem_filter.2 ⟨hp, beq_self_eq_true _⟩⟩

/-- Each plan is in exactly one group. -/
theorem countP_groupBy (key : Nat → String) {p : Nat} (hp : p ∈ plans) :
    (groupBy key plans).countP (·.plans.contains p) = 1 := by
  have hcount : (groupBy key plans).countP (·.plans.contains p) =
      (groupBy key plans).countP fun g => g.key == key p := by
    refine List.countP_congr fun g hg => ?_
    rw [List.contains_iff_mem, mem_plans_of_mem_groupBy hg, beq_iff_eq, and_iff_right hp, eq_comm]
  have hkeys : (groupBy key plans).countP (fun g => g.key == key p) = (keysOf key plans).count (key p) := by
    rw [← map_key_groupBy, List.count, List.countP_map]
    rfl
  rw [hcount, hkeys]
  exact List.count_eq_one_of_mem (nodup_keysOf key plans) (mem_keysOf.2 ⟨p, hp, rfl⟩)

/-- There is more than one group if two plans have different keys. -/
theorem two_le_length_groupBy :
    2 ≤ (groupBy key plans).length ↔ ∃ p ∈ plans, ∃ q ∈ plans, key p ≠ key q := by
  rw [← List.length_map (f := (·.key)), map_key_groupBy]
  constructor
  · intro h
    obtain ⟨k, hk, k', hk', hne⟩ := exists_ne_of_two_le_length (nodup_keysOf key plans) h
    obtain ⟨p, hp, rfl⟩ := mem_keysOf.1 hk
    obtain ⟨q, hq, rfl⟩ := mem_keysOf.1 hk'
    exact ⟨p, hp, q, hq, hne⟩
  · rintro ⟨p, hp, q, hq, hne⟩
    exact two_le_length (mem_keysOf.2 ⟨p, hp, rfl⟩) (mem_keysOf.2 ⟨q, hq, rfl⟩) hne

/-- Two plans with different keys make two groups. -/
theorem groupBy_pair {p q : Nat} (h : key p < key q) : groupBy key [p, q] = [⟨key p, [p]⟩, ⟨key q, [q]⟩] := by
  have hkeys : keysOf key [p, q] = [key p, key q] := by
    refine (pairwise_lt_keysOf key [p, q]).eq_of_mem_iff (List.pairwise_pair.2 h) fun k => ?_
    simp [mem_keysOf, eq_comm]
  rw [groupBy_eq, hkeys]
  simp [h.ne, h.ne']

end Waymark.View
