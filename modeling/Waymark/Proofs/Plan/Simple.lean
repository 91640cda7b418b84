import Mathlib.Tactic
import Waymark.Proofs.Ground.Path
import Waymark.Proofs.Number.Exact
import Waymark.Proofs.Plan.Enumeration

/-!
# Simple plans are the goals of a search

A plan is simple if it visits no state twice and no goal before its end. The nodes of a search stand for
beginnings of simple plans. Costs are exact here: the cost of a node is the sum of the costs of its
actions, in any order.

* `IsSimplePlan`, `totalCost`: simple plans and what they cost;
* `Reaches`: a node stands for its actions;
* `ranked_nodeWalk`: if no cost is negative, nodes lead on finitely far at costs that never fall;
* `exists_mem_goalsBelow`, `nodup_goalsBelow`: the goals below the start are the simple plans, each once.
-/

namespace Waymark.Plan

open Ground Number Task

/-! ## Plans and costs -/

/-- The actions are a plan that visits no state twice and no goal before its end. -/
def IsSimplePlan {κ : Type} (t : Ground.Task κ) (is : List Nat) : Prop :=
  ∃ ss, t.IsPlanVia is ss ∧ ss.Nodup ∧ ∀ s ∈ ss.dropLast, t.isGoal s = false

/-- The sum of the costs of actions. -/
def totalCost (t : Ground.Task Exact) (is : List Nat) : ℚ :=
  ((is.filterMap (t.actions[·]?)).map (·.cost.size)).sum

/-- The costs of all actions are numbers, and none is negative. -/
def NonnegativeCosts (t : Ground.Task Exact) : Prop := ∀ a ∈ t.actions, ∃ x, 0 ≤ x ∧ a.cost = .number x

variable {t : Ground.Task Exact} {p p' g : Exact × Node} {is js : List Nat}

theorem totalCost_concat {i : Nat} {a : Action Exact} (ha : t.actions[i]? = some a) :
    totalCost t (is ++ [i]) = totalCost t is + a.cost.size := by
  simp [totalCost, ha]

theorem totalCost_nonneg (ht : NonnegativeCosts t) (is : List Nat) : 0 ≤ totalCost t is := by
  refine List.sum_nonneg fun x hx => ?_
  obtain ⟨a, ha, rfl⟩ := List.mem_map.1 hx
  obtain ⟨i, -, hi⟩ := List.mem_filterMap.1 ha
  obtain ⟨x, hx, hcost⟩ := ht a (Array.mem_of_getElem? hi)
  rw [hcost]
  exact hx

/-! ## Nodes -/

theorem mem_successors {cost : Exact} {n : Node} :
    p ∈ successors t cost n ↔ ∃ i a, t.actions[i]? = some a ∧ a.applicable n.state = true ∧
      a.apply n.state ∉ n.states ∧
      p = (Scale.add cost a.cost, ⟨a.apply n.state, n.states, i :: n.actions⟩) := by
  rw [successors, List.mem_filterMap]
  constructor
  · rintro ⟨i, -, hi⟩
    split at hi
    · rename_i a ha
      split at hi
      · rename_i happ
        dsimp only at hi
        split at hi
        · cases hi
        · rename_i hnew
          exact ⟨i, a, ha, happ, fun hmem => hnew (List.contains_iff_mem.2 hmem),
            (Option.some.inj hi).symm⟩
      · cases hi
    · cases hi
  · rintro ⟨i, a, ha, happ, hnew, rfl⟩
    refine ⟨i, List.mem_range.2 (Array.getElem?_eq_some_iff.1 ha).1, ?_⟩
    rw [ha]
    show (if a.applicable n.state then if n.states.contains (a.apply n.state) then _ else _ else _) = _
    rw [if_pos happ, if_neg fun hmem => hnew (List.contains_iff_mem.1 hmem)]

/-- The node stands for its actions: they lead through its states, none twice and no goal before its last,
and cost what it costs. -/
structure Reaches (t : Ground.Task Exact) (p : Exact × Node) : Prop where
  visited : t.visited t.initialState p.2.actions.reverse = some p.2.states.reverse
  nodup : p.2.states.Nodup
  before : ∀ s ∈ p.2.before, t.isGoal s = false
  cost : p.1 = .number (totalCost t p.2.actions.reverse)

theorem reaches_start : Reaches t (Scale.ofNat 0, .start t) where
  visited := rfl
  nodup := List.nodup_singleton _
  before := by simp [Node.start]
  cost := rfl

/-- A continuation of a node stands for one more action. -/
theorem Reaches.next (ht : NonnegativeCosts t) (h : Reaches t p) (hgoal : ¬ t.isGoal p.2.state = true)
    (hp' : p' ∈ successors t p.1 p.2) : Reaches t p' := by
  obtain ⟨i, a, ha, happ, hnew, rfl⟩ := mem_successors.1 hp'
  obtain ⟨x, -, hx⟩ := ht a (Array.mem_of_getElem? ha)
  refine ⟨?visited, ?nodup, ?before, ?cost⟩
  case visited =>
    have hpath : t.visited t.initialState p.2.actions.reverse =
        some (p.2.before.reverse ++ [p.2.state]) := h.visited.trans (by rw [Node.states, List.reverse_cons])
    show t.visited _ (i :: p.2.actions).reverse = some (a.apply p.2.state :: p.2.state :: p.2.before).reverse
    rw [List.reverse_cons]
    exact visited_concat.2 ⟨_, _, a, hpath, ha, happ, by simp⟩
  case nodup => exact List.nodup_cons.2 ⟨hnew, h.nodup⟩
  case before => exact List.forall_mem_cons.2 ⟨by simpa using hgoal, h.before⟩
  case cost =>
    show Scale.add p.1 a.cost = .number (totalCost t (i :: p.2.actions).reverse)
    rw [List.reverse_cons, totalCost_concat ha, h.cost, hx, Exact.add_number]
    rfl

/-- A goal that a search looks at is a simple plan. -/
theorem Reaches.isSimplePlan (h : Reaches t p) (hgoal : t.isGoal p.2.state = true) :
    IsSimplePlan t p.2.actions.reverse := by
  refine ⟨_, ⟨h.visited, p.2.state, ?_, hgoal⟩, List.nodup_reverse.2 h.nodup, fun s hs => ?_⟩
  · rw [List.getLast?_reverse]
    rfl
  · rw [Node.states, List.reverse_cons, List.dropLast_concat] at hs
    exact h.before s (List.mem_reverse.1 hs)

/-! ## The search tree -/

/-- How many states a node has not visited, of those that there can be. -/
def room (t : Ground.Task Exact) (n : Node) : Nat :=
  2 ^ (64 * t.initialState.words.size) - n.states.length

theorem Reaches.length_le (h : Reaches t p) :
    p.2.states.length ≤ 2 ^ (64 * t.initialState.words.size) :=
  State.length_le_of_nodup h.nodup fun _ hs => size_of_mem_visited h.visited (List.mem_reverse.2 hs)

/-- Nodes lead on finitely far, since no state is visited twice, at costs that never fall. -/
theorem ranked_nodeWalk (ht : NonnegativeCosts t) : Ranked (nodeWalk t) (Reaches t) (room t) where
  next hp hgoal _ hp' := hp.next ht hgoal hp'
  height {p} hp hgoal p' hp' := by
    have hle := (hp.next ht hgoal hp').length_le
    obtain ⟨i, a, -, -, -, rfl⟩ := mem_successors.1 hp'
    have hlength : (Node.mk (a.apply p.2.state) p.2.states (i :: p.2.actions)).states.length =
        p.2.states.length + 1 := List.length_cons
    rw [hlength] at hle
    unfold room
    rw [hlength]
    omega
  cost {p} hp _ p' hp' := by
    obtain ⟨i, a, ha, -, -, rfl⟩ := mem_successors.1 hp'
    obtain ⟨x, hx, hcost⟩ := ht a (Array.mem_of_getElem? ha)
    rw [hp.cost, hcost, Exact.add_number, Exact.order_number_ne_gt_iff]
    exact le_add_of_nonneg_right hx

/-- The goals that a search can come to. -/
def reachableGoals (t : Ground.Task Exact) : List (Exact × Node) :=
  (nodeWalk t).goalsBelow (room t) (Scale.ofNat 0, .start t)

/-- What goes on from a node to a simple plan leads to a goal below the node. -/
theorem Reaches.exists_mem_goalsBelow (ht : NonnegativeCosts t) (h : Reaches t p)
    (hplan : IsSimplePlan t (p.2.actions.reverse ++ js)) :
    ∃ g ∈ (nodeWalk t).goalsBelow (room t) p, g.2.actions.reverse = p.2.actions.reverse ++ js := by
  induction js generalizing p with
  | nil =>
    obtain ⟨ss, ⟨hvisited, s, hlast, hgoal⟩, -, -⟩ := hplan
    rw [List.append_nil, h.visited] at hvisited
    obtain rfl := Option.some.inj hvisited
    rw [List.getLast?_reverse] at hlast
    obtain rfl := Option.some.inj hlast
    exact ⟨p, by rw [Ranked.goalsBelow_of_isGoal hgoal]; exact List.mem_singleton_self p,
      (List.append_nil _).symm⟩
  | cons j js ih =>
    have hsimple := hplan
    obtain ⟨ss, ⟨hvisited, -⟩, hnodup, hbefore⟩ := hplan
    obtain ⟨xs, s', rest, hprefix, hjs, rfl⟩ := visited_append.1 hvisited
    rw [h.visited, Node.states, List.reverse_cons] at hprefix
    obtain ⟨rfl, hstate⟩ := List.append_inj' (Option.some.inj hprefix) rfl
    obtain rfl := List.head_eq_of_cons_eq hstate
    obtain ⟨a, ha, happ, others, hothers, hrest⟩ := visited_cons.1 hjs
    obtain ⟨-, rfl⟩ := List.cons.inj hrest
    obtain ⟨last, hlast⟩ : ∃ last, rest = a.apply p.2.state :: last := by
      cases rest with
      | nil => cases head_visited hothers
      | cons x last => exact ⟨last, by rw [Option.some.inj (head_visited hothers)]⟩
    subst hlast
    -- The state is not the last one of the plan, so it is no goal, and the next one is new.
    have hgoal : ¬ t.isGoal p.2.state = true := by
      rw [hbefore p.2.state]
      · exact Bool.false_ne_true
      · simp [List.dropLast_append_of_ne_nil]
    have hnew : a.apply p.2.state ∉ p.2.states := by
      intro hmem
      rw [Node.states, List.mem_cons] at hmem
      rw [List.nodup_append] at hnodup
      rcases hmem with hmem | hmem
      · exact (List.nodup_cons.1 hnodup.2.1).1 (List.mem_cons.2 (.inl hmem.symm))
      · exact hnodup.2.2 _ (List.mem_reverse.2 hmem) _ (List.mem_cons_of_mem _ List.mem_cons_self) rfl
    have hnext : (Scale.add p.1 a.cost, Node.mk (a.apply p.2.state) p.2.states (j :: p.2.actions)) ∈
        successors t p.1 p.2 := mem_successors.2 ⟨j, a, ha, happ, hnew, rfl⟩
    have hsplit : (j :: p.2.actions).reverse ++ js = p.2.actions.reverse ++ j :: js := by simp
    obtain ⟨g, hg, hactions⟩ := ih (h.next ht hgoal hnext) (hsplit ▸ hsimple)
    refine ⟨g, ?_, hactions.trans hsplit⟩
    rw [(ranked_nodeWalk ht).goalsBelow_next h hgoal]
    exact List.mem_flatMap.2 ⟨_, hnext, hg⟩

/-- The actions of the goals below a node begin with the actions of the node. -/
theorem Reaches.suffix_of_mem_goalsBelow (ht : NonnegativeCosts t) (h : Reaches t p)
    (hg : g ∈ (nodeWalk t).goalsBelow (room t) p) : p.2.actions <:+ g.2.actions := by
  refine ((ranked_nodeWalk ht).forall_goalsBelow (P := fun g => p.2.actions <:+ g.2.actions) h
    (List.suffix_refl _) (fun q _ _ hq q' hq' => ?_) g hg).2.2
  obtain ⟨i, a, -, -, -, rfl⟩ := mem_successors.1 hq'
  exact hq.trans (List.suffix_cons ..)

theorem nodup_map_filterMap {α β γ : Type} {f : α → Option β} {g : β → γ} {h : α → γ}
    (hinj : Function.Injective h) (hf : ∀ x y, f x = some y → g y = h x) {xs : List α} (hxs : xs.Nodup) :
    ((xs.filterMap f).map g).Nodup := by
  rw [List.map_filterMap]
  refine hxs.filterMap fun x x' z hx hx' => ?_
  obtain ⟨y, hy, rfl⟩ := Option.map_eq_some_iff.1 hx
  obtain ⟨y', hy', heq⟩ := Option.map_eq_some_iff.1 hx'
  exact hinj ((hf x y hy).symm.trans (heq.symm.trans (hf x' y' hy')))

/-- The continuations of a node are continuations by different actions. -/
theorem nodup_successors (t : Ground.Task Exact) (cost : Exact) (n : Node) :
    ((successors t cost n).map (·.2.actions)).Nodup := by
  refine nodup_map_filterMap (h := (· :: n.actions)) (fun _ _ => List.head_eq_of_cons_eq)
    (fun i p hp => ?_) List.nodup_range
  split at hp
  · split at hp
    · dsimp only at hp
      split at hp
      · cases hp
      · rw [← Option.some.inj hp]
    · cases hp
  · cases hp

/-- No sequence of actions is met twice. -/
theorem Reaches.nodup_goalsBelow (ht : NonnegativeCosts t) (h : Reaches t p) :
    (((nodeWalk t).goalsBelow (room t) p).map (·.2.actions)).Nodup := by
  induction hn : room t p.2 using Nat.strong_induction_on generalizing p with
  | _ n ih =>
    by_cases hgoal : t.isGoal p.2.state = true
    · rw [Ranked.goalsBelow_of_isGoal hgoal]
      exact List.nodup_singleton _
    · rw [(ranked_nodeWalk ht).goalsBelow_next h hgoal, List.map_flatMap, List.nodup_flatMap]
      refine ⟨fun p' hp' => ?_, ?_⟩
      · exact ih _ (hn ▸ (ranked_nodeWalk ht).height h hgoal p' hp') (h.next ht hgoal hp') rfl
      · have hpairs := List.pairwise_map.1 (nodup_successors t p.1 p.2)
        refine hpairs.imp_of_mem fun {x y} hx hy hne => ?_
        rw [Function.onFun, List.disjoint_left]
        intro actions hxa hya
        obtain ⟨g, hg, rfl⟩ := List.mem_map.1 hxa
        obtain ⟨g', hg', heq⟩ := List.mem_map.1 hya
        have hxs : x.2.actions <:+ g.2.actions :=
          (h.next ht hgoal hx).suffix_of_mem_goalsBelow ht hg
        have hys : y.2.actions <:+ g.2.actions :=
          heq ▸ (h.next ht hgoal hy).suffix_of_mem_goalsBelow ht hg'
        -- Both continuations have one action more than the node, so they end in the same actions.
        have hlength : x.2.actions.length = y.2.actions.length := by
          obtain ⟨i, a, -, -, -, rfl⟩ := mem_successors.1 hx
          obtain ⟨j, b, -, -, -, rfl⟩ := mem_successors.1 hy
          rfl
        exact hne ((List.suffix_of_suffix_length_le hxs hys hlength.le).eq_of_length hlength)

end Waymark.Plan
