import Mathlib.Tactic
import Waymark.Proofs.View.Groups
import Waymark.Proofs.View.Prepared

/-!
# Decisions that are due

While more than one plan is left, what is due sorts the plans by a key, and two of the plans that are left have
different keys. So each choice keeps some of the plans at most, and never all of them.

* `Decision.Keyed`: a decision about plans of different keys;
* `Decision.Sorts`, `exists_sorts_due`: a decision that is due;
* `Decision.Keyed.choose_eq_ok`, `answers_iff`: which selections answer it;
* `Decision.Keyed.countP_hashes`, `Decision.Sorts.two_le_countP_available`: what the user is offered;
* `Decision.Keyed.kept_ne_nil_iff`, `Decision.Sorts.length_kept_lt`: what a choice keeps.
-/

namespace Waymark.View

variable {κ : Type} {c : Context κ} {d : Direction} {live base : List Nat} {key : Nat → String}
  {decision : Decision} {g : Group} {s : Selection}

/-- The places of some of the plans, in their order. -/
def Context.Live (c : Context κ) (live : List Nat) : Prop := live.Sublist c.all

theorem Context.Live.lt_size (h : c.Live live) {p : Nat} (hp : p ∈ live) : p < c.plans.size :=
  List.mem_range.1 (h.subset hp)

theorem Context.Live.nodup (h : c.Live live) : live.Nodup := List.nodup_range.sublist h

/-- The options are the groups of some plans by a key, among them all plans that are left. -/
structure Decision.Keyed (c : Context κ) (live base : List Nat) (key : Nat → String) (decision : Decision) :
    Prop where
  options_eq : decision.options = groupBy key base
  displayable : ∀ p, Displayable (key p)
  live_subset : ∀ p ∈ live, p ∈ base
  inRange : ∀ p ∈ base, p < c.plans.size

/-- Moreover, two of the plans that are left have different keys. -/
structure Decision.Sorts (c : Context κ) (live base : List Nat) (key : Nat → String) (decision : Decision) :
    Prop extends decision.Keyed c live base key where
  splits : ∃ p ∈ live, ∃ q ∈ live, key p ≠ key q

/-! ## What is due -/

/-- When two plans are left, a step splits them. -/
theorem sorts_stepDecision (hc : c.Proper) (hlive : c.Live live) (htwo : 2 ≤ live.length) (d : Direction) :
    ∃ key, (c.stepDecision d live).Sorts c live live key := by
  obtain ⟨i, hi, j, hj, hne⟩ := exists_ne_of_two_le_length hlive.nodup htwo
  obtain ⟨step, hstep, hdiffer⟩ := hc.exists_actionAt_ne d (hlive.lt_size hi) (hlive.lt_size hj) hne
  have hsplits : 2 ≤ (c.groupsAt d live step).length := two_le_length_groupBy.2 ⟨i, hi, j, hj, hdiffer⟩
  unfold Context.stepDecision
  dsimp only
  split
  · rename_i first hfirst
    have hfirst := List.find?_some hfirst
    exact ⟨_, ⟨rfl, fun p => displayable_actionAt d (c.actions p) first, fun _ hp => hp,
      fun _ hp => hlive.lt_size hp⟩, two_le_length_groupBy.1 (of_decide_eq_true hfirst)⟩
  · -- The step lies within the longest plan that is left.
    rename_i hnone
    have hlength {k : Nat} (hk : k ∈ live) :
        (c.actions k).length ≤ (live.map fun p => (c.actions p).length).max?.getD 0 := by
      have hmem : (c.actions k).length ∈ live.map fun p => (c.actions p).length := List.mem_map_of_mem hk
      cases hmax : (live.map fun p => (c.actions p).length).max? with
      | none => exact absurd (List.max?_eq_none_iff.1 hmax) (List.ne_nil_of_mem hmem)
      | some longest => exact (List.max?_eq_some_iff.1 hmax).2 _ hmem
    have hi' := hlength hi
    have hj' := hlength hj
    have hnot := List.find?_eq_none.1 hnone step (List.mem_range.2 (by omega))
    exact absurd (decide_eq_true hsplits) hnot

/-- Plans that differ at once are told apart by their first step. -/
theorem Context.stepDecision_of_first (h : 2 ≤ (c.groupsAt d live 0).length) :
    c.stepDecision d live = ⟨.step 0, c.groupsAt d live 0⟩ := by
  have hfirst (n : Nat) :
      (List.range (n + 1)).find? (fun step => (c.groupsAt d live step).length ≥ 2) = some 0 := by
    rw [List.range_succ_eq_map]
    exact List.find?_cons_of_pos (decide_eq_true h)
  unfold stepDecision
  dsimp only
  rw [hfirst]

/-- The choices for a landmark are groups of all plans. -/
theorem keyed_landmark (hc : c.Identified) (hlive : ∀ p ∈ live, p < c.plans.size) (id : Nat) :
    Decision.Keyed c live c.all (c.achiever id) ⟨.landmark id, c.groups id c.all⟩ where
  options_eq := rfl
  displayable := fun p => hc.displayable_achiever id p
  live_subset := fun p hp => List.mem_range.2 (hlive p hp)
  inRange := fun _ hp => List.mem_range.1 hp

/-- While more than one plan is left, what is due sorts plans by a key that splits those that are left. -/
theorem exists_sorts_due (hc : c.Proper) (hlive : c.Live live) (htwo : 2 ≤ live.length) (d : Direction) :
    ∃ base key, (c.due d live).Sorts c live base key := by
  unfold Context.due
  split
  · rename_i id hid
    have hsplits : 2 ≤ (c.groups id live).length := by
      simpa [Context.isDecision] using List.find?_some hid
    exact ⟨c.all, c.achiever id, keyed_landmark hc.toIdentified (fun _ hp => hlive.lt_size hp) id,
      two_le_length_groupBy.1 hsplits⟩
  · obtain ⟨key, hsorts⟩ := sorts_stepDecision hc hlive htwo d
    exact ⟨live, key, hsorts⟩

/-! ## Choosing -/

theorem agrees_iff {due given : Option Nat} : agrees due given = true ↔ given = none ∨ given = due := by
  rw [agrees, Bool.or_eq_true, Option.isNone_iff_eq_none, decide_eq_true_eq, eq_comm (a := due)]

/-- A selection that is refused is refused as a selection. -/
theorem choose_failsOnly (decision : Decision) (s : Selection) :
    FailsOnly (fun e => ∃ fault, e = .selection fault) (decision.choose s) := by
  fun_cases Decision.choose decision s <;> simp

/-- The choice that the user is shown for a group. -/
def Context.offer (c : Context κ) (live : List Nat) (decision : Decision) (g : Group) : Offer where
  landmark := decision.subject.landmark?
  step := decision.subject.step?
  facts := (decision.subject.landmark?.map c.facts).getD []
  achiever := shown g.key
  hashes := g.plans.map c.hash
  isAvailable := g.plans.any live.contains

theorem offersOf_eq (c : Context κ) (live : List Nat) (decision : Decision) :
    c.offersOf live decision = decision.options.map (c.offer live decision) := rfl

/-- A selection answers an offer: it names the same action, and no other landmark or step. -/
def Selection.Answers (s : Selection) (o : Offer) : Prop :=
  Plan.normalized o.achiever = Plan.normalized s.achiever ∧
    (s.landmark = none ∨ s.landmark = o.landmark) ∧ (s.step = none ∨ s.step = o.step)

namespace Decision.Keyed

variable (h : decision.Keyed c live base key)
include h

/-- The group that a selection chooses. -/
theorem choose_eq_ok : decision.choose s = .ok g ↔
    g ∈ decision.options ∧ g.key = Plan.normalized s.achiever ∧
      (s.landmark = none ∨ s.landmark = decision.subject.landmark?) ∧
      (s.step = none ∨ s.step = decision.subject.step?) := by
  rw [← agrees_iff, ← agrees_iff, h.options_eq, ← and_assoc, ← find?_groupBy, ← h.options_eq, ← Bool.and_eq_true]
  unfold Decision.choose
  dsimp only
  constructor
  · intro hchoose
    split at hchoose
    · rename_i hagrees
      split at hchoose
      · rename_i group hfind
        obtain rfl := Except.ok.inj hchoose
        exact ⟨hfind, hagrees⟩
      · cases hchoose
    · cases hchoose
  · rintro ⟨hfind, hagrees⟩
    rw [if_pos hagrees, hfind]

/-- A group has a plan, which has its key. -/
theorem exists_mem (hg : g ∈ decision.options) : ∃ p ∈ base, key p = g.key :=
  (mem_groupBy.1 (h.options_eq ▸ hg)).1

theorem mem_plans (hg : g ∈ decision.options) {p : Nat} : p ∈ g.plans ↔ p ∈ base ∧ key p = g.key :=
  mem_plans_of_mem_groupBy (h.options_eq ▸ hg)

/-- A selection answers the offer of a group if it chooses the group. -/
theorem answers_iff (hg : g ∈ decision.options) :
    s.Answers (c.offer live decision g) ↔ decision.choose s = .ok g := by
  have hdisplayed : Plan.normalized (shown g.key) = g.key := by
    obtain ⟨p, -, hp⟩ := h.exists_mem hg
    exact hp ▸ h.displayable p
  rw [h.choose_eq_ok, and_iff_right hg, Selection.Answers, Context.offer, hdisplayed]

/-! ## What is offered -/

/-- The plans of an offer are those of its group. -/
theorem contains_hash_iff (hc : c.Identified) (hg : g ∈ decision.options) {p : Nat} (hp : p < c.plans.size) :
    (c.offer live decision g).hashes.contains (c.hash p) = true ↔ p ∈ g.plans := by
  rw [List.contains_iff_mem, Context.offer]
  constructor
  · intro hmem
    obtain ⟨q, hq, hhash⟩ := List.mem_map.1 hmem
    have hqlt := h.inRange q ((h.mem_plans hg).1 hq).1
    rwa [← hc.hash_injective hqlt hp hhash]
  · exact fun hmem => List.mem_map_of_mem hmem

/-- Each plan that is left stands in exactly one offer. -/
theorem countP_hashes (hc : c.Identified) {p : Nat} (hp : p ∈ live) :
    (c.offersOf live decision).countP (·.hashes.contains (c.hash p)) = 1 := by
  have hbase := h.live_subset p hp
  rw [offersOf_eq, List.countP_map, ← countP_groupBy key hbase, ← h.options_eq]
  refine List.countP_congr fun g hg => ?_
  rw [Function.comp_apply, h.contains_hash_iff hc hg (h.inRange p hbase), List.contains_iff_mem]

/-- An offer is available if one of the plans that are left has its key. -/
theorem isAvailable_iff (hg : g ∈ decision.options) :
    (c.offer live decision g).isAvailable = true ↔ ∃ p ∈ live, key p = g.key := by
  simp only [Context.offer, List.any_eq_true, List.contains_iff_mem, h.mem_plans hg]
  constructor
  · rintro ⟨p, ⟨-, hkey⟩, hp⟩
    exact ⟨p, hp, hkey⟩
  · rintro ⟨p, hp, hkey⟩
    exact ⟨p, ⟨h.live_subset p hp, hkey⟩, hp⟩

/-- A plan that is left stands in an offer, which is available. -/
theorem exists_option {p : Nat} (hp : p ∈ live) :
    ∃ g ∈ decision.options, g.key = key p ∧ (c.offer live decision g).isAvailable = true := by
  obtain ⟨g, hg, hkey, -⟩ := exists_group key (h.live_subset p hp)
  have hg : g ∈ decision.options := h.options_eq ▸ hg
  exact ⟨g, hg, hkey, (h.isAvailable_iff hg).2 ⟨p, hp, hkey.symm⟩⟩

/-! ## What a choice keeps -/

/-- A choice keeps the plans of its key. -/
theorem kept_eq (hg : g ∈ decision.options) :
    live.filter g.plans.contains = live.filter fun p => key p = g.key := by
  refine List.filter_congr fun p hp => ?_
  rw [Bool.eq_iff_iff, List.contains_iff_mem, h.mem_plans hg, and_iff_right (h.live_subset p hp), decide_eq_true_eq]

/-- A choice keeps a plan if it is available. -/
theorem kept_ne_nil_iff (hg : g ∈ decision.options) :
    live.filter g.plans.contains ≠ [] ↔ (c.offer live decision g).isAvailable = true := by
  rw [h.kept_eq hg, h.isAvailable_iff hg, Ne, List.filter_eq_nil_iff]
  push Not
  simp only [decide_eq_true_eq]

end Decision.Keyed

namespace Decision.Sorts

variable (h : decision.Sorts c live base key)
include h

/-- At least two offers are available. -/
theorem two_le_countP_available : 2 ≤ (c.offersOf live decision).countP (·.isAvailable) := by
  obtain ⟨p, hp, q, hq, hne⟩ := h.splits
  obtain ⟨g, hg, hkey, havailable⟩ := h.exists_option hp
  obtain ⟨g', hg', hkey', havailable'⟩ := h.exists_option hq
  rw [offersOf_eq, List.countP_map, List.countP_eq_length_filter]
  refine two_le_length (List.mem_filter.2 ⟨hg, havailable⟩) (List.mem_filter.2 ⟨hg', havailable'⟩) ?_
  rintro rfl
  exact hne (hkey.symm.trans hkey')

/-- No choice keeps all plans. -/
theorem length_kept_lt (hg : g ∈ decision.options) : (live.filter g.plans.contains).length < live.length := by
  obtain ⟨p, hp, q, hq, hne⟩ := h.splits
  rw [h.kept_eq hg]
  by_contra hnot
  have hall : ∀ r ∈ live, decide (key r = g.key) = true :=
    List.length_filter_eq_length_iff.1 (le_antisymm (List.length_filter_le _ _) (not_lt.1 hnot))
  exact hne ((of_decide_eq_true (hall p hp)).trans (of_decide_eq_true (hall q hq)).symm)

end Decision.Sorts

end Waymark.View
