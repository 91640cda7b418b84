import Waymark.Plan.Search
import Waymark.Proofs.Plan.Queue

/-!
# Searches over queues

A search is determined by what the continuations of nodes are, which nodes are goals, and which plans
they stand for. Seen so, the search of a ground task is a loop over a queue, and nodes that lead to no
goal may stand in the queue or not: the plans that are found are the same.

* `Walk`, `Walk.run`: a search over a queue, with `Walk.runWithin` to compute it and `Walk.run_map` for its images;
* `nodeWalk`: the search of a ground task over nodes, with `search_eq_run_node`;
* `Track`, `trackWalk`: paths with the names of their actions, and the search of a ground task over
  them, with `search_eq_run` and `search_of_runWithin`;
* `Erases`, `Erasure`: queues and searches that agree but for nodes that lead to no goal;
* `Erasure.run_eq`: they find the same plans.
-/

namespace Waymark.Plan

open Ground Number

variable {κ σ τ : Type} [Scale κ]

/-! ## Walks -/

/-- What a search looks at: the continuations of a node, whether it is a goal, and its plan. -/
structure Walk (κ σ : Type) where
  next : κ → σ → List (κ × σ)
  isGoal : σ → Bool
  plan : κ → σ → Plan κ

/-- Adds elements with costs to a queue, one after the other. -/
def enqueueAll (q xs : List (κ × σ)) : List (κ × σ) := xs.foldl (fun q x => enqueue Prod.fst x q) q

/-- Searches on from a queue. -/
def Walk.run (w : Walk κ σ) (b : Bounds κ) (plans expansions : Nat) (best : Option κ)
    (q : List (κ × σ)) : List (Plan κ) × Ending :=
  match plans with
  | 0 => ([], .enough)
  | plans + 1 =>
    match q with
    | [] => ([], .exhausted)
    | (cost, x) :: rest =>
      if best.any fun best => b.excludes best cost then ([], .beyondBound)
      else if w.isGoal x then
        let (found, ending) := w.run b plans expansions (best.or (some cost)) rest
        (w.plan cost x :: found, ending)
      else match expansions with
        | 0 => ([], .limit)
        | expansions + 1 => w.run b (plans + 1) expansions best (enqueueAll rest (w.next cost x))
termination_by plans + expansions

section Run

variable {w : Walk κ σ} {b : Bounds κ} {plans expansions : Nat} {best : Option κ}
  {q rest : List (κ × σ)} {cost : κ} {x : σ}

theorem Walk.run_zero : w.run b 0 expansions best q = ([], .enough) := by
  unfold run
  rfl

theorem Walk.run_nil : w.run b (plans + 1) expansions best [] = ([], .exhausted) := by
  unfold run
  rfl

theorem Walk.run_excluded (h : best.any (b.excludes · cost) = true) :
    w.run b (plans + 1) expansions best ((cost, x) :: rest) = ([], .beyondBound) := by
  unfold run
  exact if_pos h

theorem Walk.run_goal (h : ¬ best.any (b.excludes · cost) = true) (hx : w.isGoal x = true) :
    w.run b (plans + 1) expansions best ((cost, x) :: rest) =
      (w.plan cost x :: (w.run b plans expansions (best.or (some cost)) rest).1,
        (w.run b plans expansions (best.or (some cost)) rest).2) := by
  conv => lhs; unfold run
  exact (if_neg h).trans (if_pos hx)

theorem Walk.run_limit (h : ¬ best.any (b.excludes · cost) = true) (hx : ¬ w.isGoal x = true) :
    w.run b (plans + 1) 0 best ((cost, x) :: rest) = ([], .limit) := by
  unfold run
  exact (if_neg h).trans (if_neg hx)

theorem Walk.run_next (h : ¬ best.any (b.excludes · cost) = true) (hx : ¬ w.isGoal x = true) :
    w.run b (plans + 1) (expansions + 1) best ((cost, x) :: rest) =
      w.run b (plans + 1) expansions best (enqueueAll rest (w.next cost x)) := by
  conv => lhs; unfold run
  exact (if_neg h).trans (if_neg hx)

/-- A search that has to go on and does not end at its limit is below it. -/
theorem Walk.exists_expansions (h : ¬ best.any (b.excludes · cost) = true) (hx : ¬ w.isGoal x = true)
    (hlimit : (w.run b (plans + 1) expansions best ((cost, x) :: rest)).2 ≠ .limit) :
    ∃ n, expansions = n + 1 := by
  cases expansions with
  | zero =>
    rw [Walk.run_limit h hx] at hlimit
    exact (hlimit rfl).elim
  | succ n => exact ⟨n, rfl⟩

end Run

/-! ### Runs of known length -/

/-- Searches on from a queue for a number of steps. There is no result if the search would go on. -/
def Walk.runWithin (w : Walk κ σ) (b : Bounds κ) : (steps plans expansions : Nat) → (best : Option κ) →
    (q : List (κ × σ)) → Option (List (Plan κ) × Ending)
  | 0, _, _, _, _ => none
  | _ + 1, 0, _, _, _ => some ([], .enough)
  | _ + 1, _ + 1, _, _, [] => some ([], .exhausted)
  | steps + 1, plans + 1, expansions, best, (cost, x) :: rest =>
    if best.any fun best => b.excludes best cost then some ([], .beyondBound)
    else if w.isGoal x then
      (w.runWithin b steps plans expansions (best.or (some cost)) rest).map fun (found, ending) =>
        (w.plan cost x :: found, ending)
    else match expansions with
      | 0 => some ([], .limit)
      | expansions + 1 => w.runWithin b steps (plans + 1) expansions best (enqueueAll rest (w.next cost x))

/-- A run that ends within a number of steps can be computed by recursion on this number. -/
theorem Walk.run_eq_of_runWithin {w : Walk κ σ} {b : Bounds κ} {steps plans expansions : Nat}
    {best : Option κ} {q : List (κ × σ)} {r : List (Plan κ) × Ending}
    (h : w.runWithin b steps plans expansions best q = some r) : w.run b plans expansions best q = r := by
  fun_induction Walk.runWithin w b steps plans expansions best q generalizing r with
  | case1 => cases h
  | case2 =>
    obtain rfl := Option.some.inj h
    exact Walk.run_zero
  | case3 =>
    obtain rfl := Option.some.inj h
    exact Walk.run_nil
  | case4 _ _ _ _ _ _ _ hexcluded =>
    obtain rfl := Option.some.inj h
    exact Walk.run_excluded hexcluded
  | case5 _ _ _ _ _ _ _ hexcluded hx ih =>
    obtain ⟨found, hfound, rfl⟩ := Option.map_eq_some_iff.1 h
    rw [Walk.run_goal hexcluded hx, ih hfound]
  | case6 _ _ _ _ _ _ hexcluded hx =>
    obtain rfl := Option.some.inj h
    exact Walk.run_limit hexcluded hx
  | case7 _ _ _ _ _ _ hexcluded hx _ ih =>
    rw [Walk.run_next hexcluded hx]
    exact ih h

/-! ### Images -/

theorem map_enqueueAll (f : σ → τ) (q xs : List (κ × σ)) :
    (enqueueAll q xs).map (Prod.map id f) =
      enqueueAll (q.map (Prod.map id f)) (xs.map (Prod.map id f)) := by
  induction xs generalizing q with
  | nil => rfl
  | cons x xs ih =>
    have hkey : ∀ x : κ × σ, Prod.fst (Prod.map id f x) = Prod.fst x := fun _ => rfl
    show (enqueueAll (enqueue Prod.fst x q) xs).map _ =
      enqueueAll (enqueue Prod.fst (Prod.map id f x) (q.map (Prod.map id f))) _
    rw [ih, map_enqueue hkey]

/-- A search over the images of nodes finds the same plans, and ends for the same reason. -/
theorem Walk.run_map {w : Walk κ σ} {w' : Walk κ τ} (f : σ → τ)
    (hgoal : ∀ x, w'.isGoal (f x) = w.isGoal x) (hplan : ∀ cost x, w'.plan cost (f x) = w.plan cost x)
    (hnext : ∀ cost x, (w.next cost x).map (Prod.map id f) = w'.next cost (f x)) (b : Bounds κ)
    (plans expansions : Nat) (best : Option κ) (q : List (κ × σ)) :
    w'.run b plans expansions best (q.map (Prod.map id f)) = w.run b plans expansions best q := by
  fun_induction Walk.run w b plans expansions best q with
  | case1 => rw [Walk.run_zero]
  | case2 => exact Walk.run_nil
  | case3 _ _ _ _ _ _ hexcluded => exact Walk.run_excluded hexcluded
  | case4 _ _ _ cost x rest hexcluded hx found ending hfound ih =>
    refine (Walk.run_goal hexcluded ((hgoal x).trans hx)).trans ?_
    rw [ih, hfound, hplan]
  | case5 _ _ _ x _ hexcluded hx =>
    exact Walk.run_limit hexcluded fun h => hx ((hgoal x).symm.trans h)
  | case6 _ _ cost x rest hexcluded hx _ ih =>
    rw [map_enqueueAll, hnext] at ih
    exact (Walk.run_next hexcluded fun h => hx ((hgoal x).symm.trans h)).trans ih

/-! ## Ground tasks -/

/-- The search of a ground task over nodes. -/
def nodeWalk (t : Ground.Task κ) : Walk κ Node where
  next := successors t
  isGoal n := t.isGoal n.state
  plan cost n := n.plan t cost

section Nodes

variable [Std.TransCmp (Scale.order : κ → κ → Ordering)]

theorem holds_pushAll {g : Agenda κ} {q : List (κ × Node)}
    (h : g.frontier.Holds g.arrivals q) (xs : List (κ × Node)) :
    (g.pushAll xs).frontier.Holds (g.pushAll xs).arrivals (enqueueAll q xs) := by
  induction xs generalizing g q with
  | nil => exact h
  | cons x xs ih => exact ih (h.push x.1 x.2)

theorem searchFrom_eq_run {t : Ground.Task κ} {b : Bounds κ} {plans expansions : Nat}
    {best : Option κ} {agenda : Agenda κ} {q : List (κ × Node)}
    (h : agenda.frontier.Holds agenda.arrivals q) :
    searchFrom t b plans expansions best agenda = (nodeWalk t).run b plans expansions best q := by
  fun_induction searchFrom t b plans expansions best agenda generalizing q with
  | case1 => rw [Walk.run_zero]
  | case2 _ _ _ _ hpop =>
    rw [h.pop_none hpop]
    exact Walk.run_nil.symm
  | case3 _ _ _ _ e f hpop hexcluded =>
    obtain ⟨rest, rfl, -⟩ := h.pop_some hpop
    exact (Walk.run_excluded hexcluded).symm
  | case4 _ _ _ _ e f hpop hexcluded hgoal found ending hfound ih =>
    obtain ⟨rest, rfl, hrest⟩ := h.pop_some hpop
    have hrun := ih hrest
    rw [hfound] at hrun
    refine Eq.trans ?_ (Walk.run_goal hexcluded hgoal).symm
    rw [← hrun]
    rfl
  | case5 _ _ _ e f hpop hexcluded hgoal =>
    obtain ⟨rest, rfl, -⟩ := h.pop_some hpop
    exact (Walk.run_limit hexcluded hgoal).symm
  | case6 _ _ _ e f hpop hexcluded hgoal expansions ih =>
    obtain ⟨rest, rfl, hrest⟩ := h.pop_some hpop
    rw [ih (holds_pushAll hrest _)]
    exact (Walk.run_next hexcluded hgoal).symm

/-- A search is a search over nodes, whose queue is a list. -/
theorem search_eq_run_node (t : Ground.Task κ) (b : Bounds κ) :
    search t b =
      (nodeWalk t).run b b.maxPlans b.maxExpansions none [(Scale.ofNat 0, .start t)] :=
  searchFrom_eq_run (holds_pushAll (g := ⟨.empty, 0⟩) Frontier.holds_empty _)

end Nodes

/-! ### Paths with names -/

/-- A path: the state that it leads to, the states before, and the names of its actions, the last one
first. -/
structure Track where
  state : State
  before : List State
  names : List String

/-- The path of a node. -/
def Node.track (t : Ground.Task κ) (n : Node) : Track :=
  ⟨n.state, n.before, n.actions.map t.actionName⟩

/-- The path that goes on with an action, unless it returns to a state. -/
def Track.extend (cost : κ) (x : Track) (a : Action κ) : Option (κ × Track) :=
  if a.applicable x.state then
    if (x.state :: x.before).contains (a.apply x.state) then none
    else some (Scale.add cost a.cost, ⟨a.apply x.state, x.state :: x.before, a.name :: x.names⟩)
  else none

/-- The search of a ground task over paths. -/
def trackWalk (t : Ground.Task κ) : Walk κ Track where
  next cost x := t.actions.toList.filterMap (x.extend cost)
  isGoal x := t.isGoal x.state
  plan cost x := { actions := x.names.reverse, cost }

theorem filterMap_range {α β : Type} (xs : List α) (f : α → Option β) :
    (List.range xs.length).filterMap (fun i => xs[i]?.bind f) = xs.filterMap f := by
  induction xs using List.reverseRecOn with
  | nil => rfl
  | append_singleton xs x ih =>
    have hleft : (List.range xs.length).filterMap (fun i => (xs ++ [x])[i]?.bind f) =
        (List.range xs.length).filterMap (fun i => xs[i]?.bind f) :=
      List.filterMap_congr fun i hi => by rw [List.getElem?_append_left (List.mem_range.1 hi)]
    rw [List.length_append, List.length_singleton, List.range_succ, List.filterMap_append,
      List.filterMap_append, hleft, ih, List.filterMap_cons, List.getElem?_concat_length]
    rfl

theorem map_successors (t : Ground.Task κ) (cost : κ) (n : Node) :
    (successors t cost n).map (Prod.map id (Node.track t)) = (trackWalk t).next cost (n.track t) := by
  have hrange := filterMap_range t.actions.toList (Track.extend cost (n.track t))
  rw [Array.length_toList] at hrange
  rw [successors, List.map_filterMap, Task.actionNumbers]
  refine Eq.trans (List.filterMap_congr fun i _ => ?_) hrange
  rw [Array.getElem?_toList]
  cases ha : t.actions[i]? with
  | none => rfl
  | some a =>
    have hname : t.actionName i = a.name := by rw [Task.actionName, ha]; rfl
    show Option.map _ (if a.applicable n.state then _ else none) = Track.extend cost (n.track t) a
    unfold Track.extend
    show Option.map _ (if a.applicable n.state then _ else none) = if a.applicable n.state then _ else _
    split
    · show Option.map _ (if n.states.contains (a.apply n.state) then _ else _) =
        if n.states.contains (a.apply n.state) then _ else _
      split
      · rfl
      · rw [Option.map_some, ← hname]
        rfl
    · rfl

section Search

variable [Std.TransCmp (Scale.order : κ → κ → Ordering)]

/-- A search is a search over paths, whose queue is a list. -/
theorem search_eq_run (t : Ground.Task κ) (b : Bounds κ) :
    search t b =
      (trackWalk t).run b b.maxPlans b.maxExpansions none
        [(Scale.ofNat 0, ⟨t.initialState, [], []⟩)] := by
  have hgoal (n : Node) : (trackWalk t).isGoal (n.track t) = (nodeWalk t).isGoal n := rfl
  have hplan (cost : κ) (n : Node) : (trackWalk t).plan cost (n.track t) = (nodeWalk t).plan cost n := by
    show Plan.mk _ _ _ = Plan.mk _ _ _
    rw [Node.track, List.map_reverse]
  rw [search_eq_run_node]
  exact (Walk.run_map (Node.track t) hgoal hplan (map_successors t) b _ _ none
    [(Scale.ofNat 0, .start t)]).symm

/-- What a search finds that ends within a number of steps, and why it ends. -/
theorem search_of_runWithin {t : Ground.Task κ} {b : Bounds κ} (steps : Nat) {start : State}
    {plans : List (List String)} {ending : Ending} (hstart : t.initialState = start)
    (h : ((trackWalk t).runWithin b steps b.maxPlans b.maxExpansions none
      [(Scale.ofNat 0, ⟨start, [], []⟩)]).map (fun r => (r.1.map (·.actions), r.2)) = some (plans, ending)) :
    (search t b).1.map (·.actions) = plans ∧ (search t b).2 = ending := by
  obtain ⟨r, hr, hshown⟩ := Option.map_eq_some_iff.1 h
  rw [search_eq_run, hstart, Walk.run_eq_of_runWithin hr]
  exact Prod.mk.inj hshown

end Search

/-! ## Nodes without goals -/

/-- The second queue has the nodes of the first, each with a related one, and further nodes among
them. -/
inductive Erases (R : σ → τ → Prop) (D : τ → Prop) : List (κ × σ) → List (κ × τ) → Prop
  | nil : Erases R D [] []
  | keep {cost : κ} {x : σ} {y : τ} {xs : List (κ × σ)} {ys : List (κ × τ)} (h : R x y)
      (rest : Erases R D xs ys) : Erases R D ((cost, x) :: xs) ((cost, y) :: ys)
  | drop {cost : κ} {y : τ} {xs : List (κ × σ)} {ys : List (κ × τ)} (h : D y)
      (rest : Erases R D xs ys) : Erases R D xs ((cost, y) :: ys)

/-- The queue is in the order of costs. -/
def Sorted (q : List (κ × σ)) : Prop := q.Pairwise fun x y => Scale.order x.1 y.1 ≠ .gt

section Erases

variable {R : σ → τ → Prop} {D : τ → Prop} {q : List (κ × σ)} {q' : List (κ × τ)} {cost : κ} {x : σ}
  {y : τ}

omit [Scale κ] in
/-- A node of the first queue is one of the second, at the same cost. -/
theorem Erases.exists_cost (h : Erases R D q q') {p : κ × σ} (hp : p ∈ q) : ∃ p' ∈ q', p'.1 = p.1 := by
  induction h with
  | nil => cases hp
  | keep _ _ ih =>
    rcases List.mem_cons.1 hp with rfl | hp
    · exact ⟨_, List.mem_cons_self, rfl⟩
    · obtain ⟨p', hp', he⟩ := ih hp
      exact ⟨p', List.mem_cons_of_mem _ hp', he⟩
  | drop _ _ ih =>
    obtain ⟨p', hp', he⟩ := ih hp
    exact ⟨p', List.mem_cons_of_mem _ hp', he⟩

theorem Erases.enqueue_drop (h : Erases R D q q') (hy : D y) :
    Erases R D q (enqueue Prod.fst (cost, y) q') := by
  induction h with
  | nil => exact .drop hy .nil
  | keep hx rest ih =>
    unfold enqueue
    split
    · exact .drop hy (.keep hx rest)
    · exact .keep hx ih
  | drop hd rest ih =>
    unfold enqueue
    split
    · exact .drop hy (.drop hd rest)
    · exact .drop hd ih

variable [Std.TransCmp (Scale.order : κ → κ → Ordering)]

theorem sorted_enqueue (h : Sorted q) (x : κ × σ) : Sorted (enqueue Prod.fst x q) := by
  induction q with
  | nil => exact List.pairwise_singleton _ _
  | cons y ys ih =>
    obtain ⟨hy, hys⟩ := List.pairwise_cons.1 h
    unfold enqueue
    split
    · rename_i hgt
      have hlt : Scale.order x.1 y.1 = .lt := Std.OrientedCmp.lt_of_gt hgt
      refine List.pairwise_cons.2 ⟨fun z hz => ?_, h⟩
      rcases List.mem_cons.1 hz with rfl | hz
      · rw [hlt]
        decide
      · have hle := Ordering.isLE_iff_ne_gt.2 (hy z hz)
        rw [Std.TransCmp.lt_of_lt_of_isLE hlt hle]
        decide
    · rename_i hne
      refine List.pairwise_cons.2 ⟨fun z hz => ?_, ih hys⟩
      rcases List.mem_cons.1 ((enqueue_perm ..).mem_iff.1 hz) with rfl | hz
      · exact hne
      · exact hy z hz

/-- What goes in front of a node goes in front of all that come after it. -/
theorem Sorted.order_gt {y : κ × τ} {ys : List (κ × τ)} (h : Sorted (y :: ys))
    (hgt : Scale.order y.1 cost = .gt) : ∀ z ∈ ys, Scale.order z.1 cost = .gt := by
  intro z hz
  have hle := Ordering.isLE_iff_ne_gt.2 ((List.pairwise_cons.1 h).1 z hz)
  exact Std.OrientedCmp.gt_of_lt
    (Std.TransCmp.lt_of_lt_of_isLE (Std.OrientedCmp.lt_of_gt hgt) hle)

theorem Erases.enqueue_keep (h : Erases R D q q') (hs : Sorted q') (hx : R x y) :
    Erases R D (enqueue Prod.fst (cost, x) q) (enqueue Prod.fst (cost, y) q') := by
  induction h with
  | nil => exact .keep hx .nil
  | @keep c x' y' xs ys hx' rest ih =>
    unfold enqueue
    split
    · exact .keep hx (.keep hx' rest)
    · exact .keep hx' (ih (List.pairwise_cons.1 hs).2)
  | @drop c y' xs ys hd rest ih =>
    by_cases hgt : Scale.order c cost = .gt
    · have hfirst' : enqueue Prod.fst (cost, y) ((c, y') :: ys) = (cost, y) :: (c, y') :: ys := if_pos hgt
      -- All of the first queue comes after the node that is erased, so the new node goes first there.
      have hfirst : enqueue Prod.fst (cost, x) xs = (cost, x) :: xs := by
        cases xs with
        | nil => rfl
        | cons p xs =>
          obtain ⟨p', hp', he⟩ := rest.exists_cost List.mem_cons_self
          exact if_pos (he ▸ hs.order_gt hgt p' hp')
      rw [hfirst, hfirst']
      exact .keep hx (.drop hd rest)
    · have hbehind : enqueue Prod.fst (cost, y) ((c, y') :: ys) =
          (c, y') :: enqueue Prod.fst (cost, y) ys := if_neg hgt
      rw [hbehind]
      exact .drop hd (ih (List.pairwise_cons.1 hs).2)

theorem sorted_enqueueAll (h : Sorted q) (xs : List (κ × σ)) : Sorted (enqueueAll q xs) := by
  induction xs generalizing q with
  | nil => exact h
  | cons x xs ih => exact ih (sorted_enqueue h x)

theorem Erases.enqueueAll (h : Erases R D q q') (hs : Sorted q') {xs : List (κ × σ)}
    {ys : List (κ × τ)} (hxs : Erases R D xs ys) :
    Erases R D (enqueueAll q xs) (enqueueAll q' ys) := by
  induction hxs generalizing q q' with
  | nil => exact h
  | keep hx _ ih => exact ih (h.enqueue_keep hs hx) (sorted_enqueue hs _)
  | drop hd _ ih => exact ih (h.enqueue_drop hd) (sorted_enqueue hs _)

omit [Std.TransCmp (Scale.order : κ → κ → Ordering)] in
theorem Erases.enqueueAll_drop (h : Erases R D q q') {ys : List (κ × τ)} (hys : ∀ p ∈ ys, D p.2) :
    Erases R D q (Plan.enqueueAll q' ys) := by
  induction ys generalizing q' with
  | nil => exact h
  | cons y ys ih =>
    obtain ⟨hy, hys⟩ := List.forall_mem_cons.1 hys
    exact ih (h.enqueue_drop hy) hys

omit [Std.TransCmp (Scale.order : κ → κ → Ordering)] in
theorem forall_enqueueAll {P : κ → Prop} (h : ∀ p ∈ q, P p.1) {xs : List (κ × σ)}
    (hxs : ∀ p ∈ xs, P p.1) : ∀ p ∈ enqueueAll q xs, P p.1 := by
  induction xs generalizing q with
  | nil => exact h
  | cons x xs ih =>
    obtain ⟨hx, hxs⟩ := List.forall_mem_cons.1 hxs
    refine ih (fun p hp => ?_) hxs
    rcases List.mem_cons.1 ((enqueue_perm ..).mem_iff.1 hp) with rfl | hp
    · exact hx
    · exact h p hp

end Erases

/-- The searches agree but for nodes that lead to no goal: related nodes have related continuations and
the same plans, the continuations of the others are such again. Costs keep a property. -/
structure Erasure (w : Walk κ σ) (w' : Walk κ τ) (R : σ → τ → Prop) (D : τ → Prop) (P : κ → Prop) :
    Prop where
  isGoal : ∀ {x y}, R x y → w.isGoal x = w'.isGoal y
  plan : ∀ {x y}, R x y → ∀ cost, w.plan cost x = w'.plan cost y
  next : ∀ {x y}, R x y → ∀ cost, Erases R D (w.next cost x) (w'.next cost y)
  not_isGoal : ∀ {y}, D y → ¬ w'.isGoal y = true
  next_erased : ∀ {y}, D y → ∀ cost, ∀ p ∈ w'.next cost y, D p.2
  cost : ∀ {x y}, R x y → ∀ {cost}, P cost → ∀ p ∈ w.next cost x, P p.1

section Erasure

variable [Std.TransCmp (Scale.order : κ → κ → Ordering)] {R : σ → τ → Prop} {D : τ → Prop} {P : κ → Prop}
  {b : Bounds κ}
  (hb : ∀ best c c', P c' → Scale.order c c' ≠ .gt → b.excludes best c = true →
    b.excludes best c' = true)
include hb

omit [Std.TransCmp (Scale.order : κ → κ → Ordering)] in
/-- If the first node of the second queue is beyond the bound, so is all of the first queue. -/
theorem Erases.run_eq_nil {w : Walk κ σ} {q : List (κ × σ)} {cost : κ} {y : τ} {ys : List (κ × τ)}
    (h : Erases R D q ys) (hs : Sorted ((cost, y) :: ys)) (hP : ∀ p ∈ q, P p.1) {best : Option κ}
    (hexcluded : best.any (b.excludes · cost) = true) (plans expansions : Nat) :
    (w.run b (plans + 1) expansions best q).1 = [] := by
  cases q with
  | nil => rw [Walk.run_nil]
  | cons p xs =>
    obtain ⟨c, x⟩ := p
    obtain ⟨p', hp', he⟩ := h.exists_cost List.mem_cons_self
    have hexcluded' : best.any (b.excludes · c) = true := by
      cases best with
      | none => cases hexcluded
      | some best =>
        have hle := (List.pairwise_cons.1 hs).1 p' hp'
        rw [he] at hle
        exact hb best cost c (hP _ List.mem_cons_self) hle hexcluded
    rw [Walk.run_excluded hexcluded']

/-- **Nodes that lead to no goal do not matter.** Unless one of them meets its limit, both searches find
the same plans. -/
theorem Erasure.run_eq {w : Walk κ σ} {w' : Walk κ τ} (h : Erasure w w' R D P)
    {plans expansions expansions' : Nat} {best : Option κ} {q : List (κ × σ)} {q' : List (κ × τ)}
    (hq : Erases R D q q') (hs : Sorted q') (hP : ∀ p ∈ q, P p.1)
    (hlimit : (w.run b plans expansions best q).2 ≠ .limit)
    (hlimit' : (w'.run b plans expansions' best q').2 ≠ .limit) :
    (w.run b plans expansions best q).1 = (w'.run b plans expansions' best q').1 := by
  -- The second search looks at all that the first does, so the induction is on what it has left.
  induction hn : plans + expansions' using Nat.strong_induction_on
    generalizing plans expansions expansions' best q q' with
  | _ n ih =>
    cases plans with
    | zero => rw [Walk.run_zero, Walk.run_zero]
    | succ plans =>
      cases hq with
      | nil => rw [Walk.run_nil, Walk.run_nil]
      | @keep cost x y xs ys hx rest =>
        have hys : Sorted ys := (List.pairwise_cons.1 hs).2
        obtain ⟨hcost, hxs⟩ := List.forall_mem_cons.1 hP
        by_cases hexcluded : best.any (b.excludes · cost) = true
        · rw [Walk.run_excluded hexcluded, Walk.run_excluded hexcluded]
        by_cases hgoal : w.isGoal x = true
        · have hgoal' := hgoal
          rw [h.isGoal hx] at hgoal'
          rw [Walk.run_goal hexcluded hgoal] at hlimit ⊢
          rw [Walk.run_goal hexcluded hgoal'] at hlimit' ⊢
          have hrest := ih (plans + expansions') (by omega) rest hys hxs hlimit hlimit' rfl
          show _ :: _ = _ :: _
          rw [hrest, h.plan hx]
        · have hgoal' := hgoal
          rw [h.isGoal hx] at hgoal'
          obtain ⟨expansions, rfl⟩ := Walk.exists_expansions hexcluded hgoal hlimit
          obtain ⟨expansions', rfl⟩ := Walk.exists_expansions hexcluded hgoal' hlimit'
          rw [Walk.run_next hexcluded hgoal] at hlimit ⊢
          rw [Walk.run_next hexcluded hgoal'] at hlimit' ⊢
          exact ih (plans + 1 + expansions') (by omega) (rest.enqueueAll hys (h.next hx cost))
            (sorted_enqueueAll hys _) (forall_enqueueAll hxs (h.cost hx hcost)) hlimit hlimit' rfl
      | @drop cost y _ ys hy rest =>
        have hys : Sorted ys := (List.pairwise_cons.1 hs).2
        by_cases hexcluded : best.any (b.excludes · cost) = true
        · rw [Walk.run_excluded hexcluded]
          exact rest.run_eq_nil hb hs hP hexcluded plans expansions
        · have hgoal := h.not_isGoal hy
          obtain ⟨expansions', rfl⟩ := Walk.exists_expansions hexcluded hgoal hlimit'
          rw [Walk.run_next hexcluded hgoal] at hlimit' ⊢
          exact ih (plans + 1 + expansions') (by omega)
            (rest.enqueueAll_drop (h.next_erased hy cost)) (sorted_enqueueAll hys _) hP hlimit
            hlimit' rfl

end Erasure

end Waymark.Plan
