import Mathlib.Tactic
import Waymark.Plan.Search
import Waymark.Proofs.Checked

/-!
# Searches over an arena

A search that keeps its nodes in an array, each with the number of the node that it continues, and whose
frontier holds numbers. States on the way of a node and the actions of a plan are read off by following these
numbers. All of them are those of nodes, and every node continues one that was there before it, so the reads
have results and come to an end.

* `Branch`, `onPath?`, `names?`, `search?`: the search with checked accesses;
* `Stands`: a number stands for a sequence of actions, as long as nodes are only added;
* `Frontier.Rel`: frontiers of one shape, whose entries correspond;
* `search?_eq_some`: the search finds the same plans.
-/

namespace Waymark.Plan

open Ground Number

variable {κ : Type}

/-! ## The search -/

/-- A node in an array of nodes: the state that it leads to, the number of the node that it continues with the
action that leads from there, and its cost. -/
structure Branch (κ : Type) where
  state : State
  parent : Option Nat
  action : Option Nat
  cost : κ

/-- The state is on the way of a node. There is no answer if a node on the way is missing, or if there are more
than so many. -/
def onPath? (nodes : Array (Branch κ)) (state : State) : Nat → Nat → Option Bool
  | 0, _ => none
  | steps + 1, place => do
    let n ← nodes[place]?
    if n.state = state then return true
    else match n.parent with
      | some parent => onPath? nodes state steps parent
      | none => return false

/-- The names of the actions on the way of a node, the last one first. -/
def names? (t : Ground.Task κ) (nodes : Array (Branch κ)) : Nat → Nat → Option (List String)
  | 0, _ => none
  | steps + 1, place => do
    let n ← nodes[place]?
    match n.action, n.parent with
    | some action, some parent =>
      let a ← t.actions[action]?
      return a.name :: (← names? t nodes steps parent)
    | _, _ => return []

/-- The nodes of a search, the numbers of those that it has to look at, and how many entries it has met. -/
structure Arena (κ : Type) where
  nodes : Array (Branch κ)
  frontier : Frontier κ Nat
  arrivals : Nat

variable [Scale κ]

/-- Adds a node. -/
def Arena.push (g : Arena κ) (n : Branch κ) : Arena κ where
  nodes := g.nodes.push n
  frontier := g.frontier.push ⟨n.cost, g.arrivals, g.nodes.size⟩
  arrivals := g.arrivals + 1

/-- Continues a node by an action, unless this returns to a state. -/
def Arena.extend? (t : Ground.Task κ) (place : Nat) (g : Arena κ) (action : Nat) : Option (Arena κ) := do
  let a ← t.actions[action]?
  let n ← g.nodes[place]?
  if a.applicable n.state then
    if ← onPath? g.nodes (a.apply n.state) g.nodes.size place then return g
    else return g.push ⟨a.apply n.state, some place, some action, Scale.add n.cost a.cost⟩
  else return g

/-- Searches on while `plans` more plans are wanted and `expansions` more nodes may be continued. -/
def searchFrom? (t : Ground.Task κ) (b : Bounds κ) (plans expansions : Nat) (best : Option κ) (g : Arena κ) :
    Option (List (Plan κ) × Ending) :=
  match plans with
  | 0 => some ([], .enough)
  | plans + 1 =>
    match g.frontier.pop? with
    | none => some ([], .exhausted)
    | some (entry, frontier) =>
      if best.any fun best => b.excludes best entry.cost then some ([], .beyondBound)
      else do
        let n ← g.nodes[entry.item]?
        if t.isGoal n.state then
          let names ← names? t g.nodes g.nodes.size entry.item
          let (found, ending) ←
            searchFrom? t b plans expansions (best.or (some entry.cost)) { g with frontier }
          return ({ actions := names.reverse, cost := entry.cost } :: found, ending)
        else match expansions with
          | 0 => return ([], .limit)
          | expansions + 1 =>
            searchFrom? t b (plans + 1) expansions best
              (← t.actionNumbers.foldlM (Arena.extend? t entry.item) { g with frontier })
termination_by plans + expansions

/-- The plans of a ground task within the bounds, cheapest first, and why there are no more. -/
def search? (t : Ground.Task κ) (b : Bounds κ) : Option (List (Plan κ) × Ending) :=
  searchFrom? t b b.maxPlans b.maxExpansions none
    (Arena.push ⟨#[], .empty, 0⟩ ⟨t.initialState, none, none, Scale.ofNat 0⟩)

/-! ## Numbers of nodes -/

section Stands

variable {t : Ground.Task κ} {nodes : Array (Branch κ)} {cost : κ} {place : Nat} {n : Node}

omit [Scale κ]

/-- A number in an array of nodes stands for a sequence of actions with a cost. -/
inductive Stands (t : Ground.Task κ) (nodes : Array (Branch κ)) : κ → Nat → Node → Prop
  | start {place : Nat} {x : Branch κ} (hx : nodes[place]? = some x) (hparent : x.parent = none) :
    Stands t nodes x.cost place ⟨x.state, [], []⟩
  | step {place parent action : Nat} {x : Branch κ} {cost : κ} {n : Node} (hx : nodes[place]? = some x)
    (hparent : x.parent = some parent) (hlt : parent < place) (haction : x.action = some action)
    (ha : action < t.actions.size) (hn : Stands t nodes cost parent n) :
    Stands t nodes x.cost place ⟨x.state, n.states, action :: n.actions⟩

namespace Stands

/-- Numbers keep what they stand for when nodes are added. -/
theorem push (h : Stands t nodes cost place n) (x : Branch κ) : Stands t (nodes.push x) cost place n := by
  have hkept {i : Nat} {y : Branch κ} (hy : nodes[i]? = some y) : (nodes.push x)[i]? = some y := by
    obtain ⟨hlt, rfl⟩ := Array.getElem?_eq_some_iff.1 hy
    exact Array.getElem?_push_lt hlt
  induction h with
  | start hx hparent => exact .start (hkept hx) hparent
  | step hx hparent hlt haction ha _ ih => exact .step (hkept hx) hparent hlt haction ha ih

/-- A number that stands for something is that of a node, which has its state and its cost. -/
theorem exists_node (h : Stands t nodes cost place n) :
    ∃ x, nodes[place]? = some x ∧ x.state = n.state ∧ x.cost = cost := by
  cases h with
  | start hx => exact ⟨_, hx, rfl, rfl⟩
  | step hx => exact ⟨_, hx, rfl, rfl⟩

theorem lt_size (h : Stands t nodes cost place n) : place < nodes.size := by
  obtain ⟨x, hx, -⟩ := h.exists_node
  exact (Array.getElem?_eq_some_iff.1 hx).1

/-- The states on the way are found, as every number leads to a smaller one. -/
theorem onPath?_eq_some (h : Stands t nodes cost place n) (state : State) {steps : Nat} (hsteps : place < steps) :
    onPath? nodes state steps place = some (n.states.contains state) := by
  have hcontains (y : State) (rest : List State) :
      (y :: rest).contains state = if y = state then true else rest.contains state := by
    rw [List.contains_cons]
    split
    · simp [*]
    · rename_i hne
      rw [beq_false_of_ne (Ne.symm hne), Bool.false_or]
  induction h generalizing steps with
  | @start place x hx hparent =>
    obtain ⟨steps, rfl⟩ := Nat.exists_eq_add_one.2 (Nat.zero_lt_of_lt hsteps)
    rw [onPath?, hx, Node.states, hcontains]
    simp only [Option.bind_eq_bind, Option.bind_some, hparent]
    split
    · rfl
    · rfl
  | @step place parent action x cost n hx hparent hlt _ _ _ ih =>
    obtain ⟨steps, rfl⟩ := Nat.exists_eq_add_one.2 (Nat.zero_lt_of_lt hsteps)
    have hrest := ih (hlt.trans_le (Nat.le_of_lt_succ hsteps))
    rw [onPath?, hx, Node.states, hcontains]
    simp only [Option.bind_eq_bind, Option.bind_some, hparent, hrest]
    split
    · rfl
    · rfl

/-- The names of the actions are found. -/
theorem names?_eq_some (h : Stands t nodes cost place n) {steps : Nat} (hsteps : place < steps) :
    names? t nodes steps place = some (n.actions.map t.actionName) := by
  induction h generalizing steps with
  | start hx hparent =>
    obtain ⟨steps, rfl⟩ := Nat.exists_eq_add_one.2 (Nat.zero_lt_of_lt hsteps)
    rw [names?, hx]
    simp only [Option.bind_eq_bind, Option.bind_some, hparent]
    split
    · rename_i hnone
      cases hnone
    · rfl
  | step hx hparent hlt haction ha _ ih =>
    obtain ⟨steps, rfl⟩ := Nat.exists_eq_add_one.2 (Nat.zero_lt_of_lt hsteps)
    have hrest := ih (hlt.trans_le (Nat.le_of_lt_succ hsteps))
    rw [names?, hx]
    simp only [Option.bind_eq_bind, Option.bind_some, hparent, haction, Array.getElem?_eq_getElem ha, hrest]
    rw [List.map_cons, Task.actionName, Array.getElem?_eq_getElem ha]
    rfl

end Stands

end Stands

/-! ## Frontiers of one shape -/

namespace Frontier

variable {α β : Type} {R R' : κ → α → β → Prop}

/-- Entries at the same cost and place in the order of arrival, with related items. -/
def EntryRel (R : κ → α → β → Prop) (e : Entry κ α) (e' : Entry κ β) : Prop :=
  e.cost = e'.cost ∧ e.arrival = e'.arrival ∧ R e.cost e.item e'.item

/-- Frontiers of the same shape with related entries. -/
inductive Rel (R : κ → α → β → Prop) : Frontier κ α → Frontier κ β → Prop
  | empty : Rel R .empty .empty
  | node {rank : Nat} {e : Entry κ α} {e' : Entry κ β} {left right : Frontier κ α} {left' right' : Frontier κ β}
    (he : EntryRel R e e') (hleft : Rel R left left') (hright : Rel R right right') :
    Rel R (.node rank e left right) (.node rank e' left' right')

namespace Rel

variable {x y : Frontier κ α} {x' y' : Frontier κ β} {e : Entry κ α} {e' : Entry κ β}

omit [Scale κ] in
theorem mono (h : Rel R x x') (hR : ∀ cost a b, R cost a b → R' cost a b) : Rel R' x x' := by
  induction h with
  | empty => exact .empty
  | node he _ _ ihleft ihright => exact .node ⟨he.1, he.2.1, hR _ _ _ he.2.2⟩ ihleft ihright

omit [Scale κ] in
theorem rank_eq (h : Rel R x x') : x.rank = x'.rank := by
  cases h <;> rfl

omit [Scale κ] in
theorem join (he : EntryRel R e e') (hx : Rel R x x') (hy : Rel R y y') :
    Rel R (Frontier.join e x y) (Frontier.join e' x' y') := by
  unfold Frontier.join
  rw [hx.rank_eq, hy.rank_eq]
  split
  · exact .node he hy hx
  · exact .node he hx hy

theorem precedes_eq {d : Entry κ α} {d' : Entry κ β} (he : EntryRel R e e') (hd : EntryRel R d d') :
    e.precedes d = e'.precedes d' := by
  rw [Entry.precedes, Entry.precedes, he.1, he.2.1, hd.1, hd.2.1]

theorem merge (hx : Rel R x x') (hy : Rel R y y') : Rel R (x.merge y) (x'.merge y') := by
  fun_induction Frontier.merge x y generalizing x' y' with
  | case1 y =>
    cases hx
    rw [Frontier.merge]
    exact hy
  | case2 x hne =>
    cases hy
    cases hx with
    | empty => exact (hne rfl).elim
    | node he hleft hright =>
      rw [Frontier.merge]
      · exact .node he hleft hright
      · exact nofun
  | case3 _ e left right _ d left₁ right₁ hprecedes ih =>
    cases hx with
    | node he hleft hright =>
      cases hy with
      | node hd hleft₁ hright₁ =>
        rw [Frontier.merge, ← precedes_eq he hd, if_pos hprecedes]
        exact .join he hleft (ih hright (.node hd hleft₁ hright₁))
  | case4 _ e left right _ d left₁ right₁ hprecedes ih =>
    cases hx with
    | node he hleft hright =>
      cases hy with
      | node hd hleft₁ hright₁ =>
        rw [Frontier.merge, ← precedes_eq he hd, if_neg hprecedes]
        exact .join hd hleft₁ (ih (.node he hleft hright) hright₁)

theorem push (hx : Rel R x x') (he : EntryRel R e e') : Rel R (x.push e) (x'.push e') :=
  hx.merge (.node he .empty .empty)

/-- Related frontiers have related first entries, and related rests. -/
theorem pop? (hx : Rel R x x') : Option.Rel (fun p q => EntryRel R p.1 q.1 ∧ Rel R p.2 q.2) x.pop? x'.pop? := by
  cases hx with
  | empty => exact .none
  | node he hleft hright => exact .some ⟨he, hleft.merge hright⟩

end Rel

end Frontier

/-! ## The same plans -/

/-- The node that continues a node by an action, without returning to a state, with its cost. -/
def successor? (t : Ground.Task κ) (cost : κ) (n : Node) (action : Nat) : Option (κ × Node) :=
  match t.actions[action]? with
  | some a =>
    if a.applicable n.state then
      let next := a.apply n.state
      if n.states.contains next then none else some (Scale.add cost a.cost, ⟨next, n.states, action :: n.actions⟩)
    else none
  | none => none

/-- What the frontier of an arena holds are the numbers of the nodes of an agenda. -/
structure Arena.Follows (t : Ground.Task κ) (g : Arena κ) (agenda : Agenda κ) : Prop where
  frontier : Frontier.Rel (Stands t g.nodes) g.frontier agenda.frontier
  arrivals : g.arrivals = agenda.arrivals

namespace Arena.Follows

variable {t : Ground.Task κ} {g : Arena κ} {agenda : Agenda κ} {cost : κ} {place : Nat} {n : Node}

theorem push (h : g.Follows t agenda) {x : Branch κ} (hx : x.cost = cost)
    (hn : Stands t (g.nodes.push x) cost g.nodes.size n) : (g.push x).Follows t (agenda.pushAll [(cost, n)]) where
  frontier := (h.frontier.mono fun _ _ _ hstands => hstands.push x).push ⟨hx, h.arrivals, hx ▸ hn⟩
  arrivals := congrArg (· + 1) h.arrivals

theorem pop_none (h : g.Follows t agenda) (hpop : agenda.frontier.pop? = none) : g.frontier.pop? = none := by
  have hrel := h.frontier.pop?
  rw [hpop] at hrel
  generalize g.frontier.pop? = r at hrel ⊢
  cases hrel
  rfl

/-- The first entry of the frontier is the number of the first node of the agenda. -/
theorem pop_some (h : g.Follows t agenda) {e : Entry κ Node} {f : Frontier κ Node}
    (hpop : agenda.frontier.pop? = some (e, f)) : ∃ e' f', g.frontier.pop? = some (e', f') ∧ e'.cost = e.cost ∧
      Stands t g.nodes e.cost e'.item e.item ∧
      Arena.Follows t { g with frontier := f' } { agenda with frontier := f } := by
  have hrel := h.frontier.pop?
  rw [hpop] at hrel
  generalize g.frontier.pop? = r at hrel ⊢
  cases hrel with
  | @some p _ hp =>
    obtain ⟨⟨hcost, -, hstands⟩, hrest⟩ := hp
    exact ⟨p.1, p.2, rfl, hcost, hcost ▸ hstands, hrest, h.arrivals⟩

/-- Continuing a node by an action adds the node that does so, if there is one. -/
theorem extend (h : g.Follows t agenda) (hplace : Stands t g.nodes cost place n) {i : Nat}
    (hi : i < t.actions.size) : ∃ g', g.extend? t place i = some g' ∧
      g'.Follows t (agenda.pushAll (successor? t cost n i).toList) ∧ Stands t g'.nodes cost place n := by
  obtain ⟨x, hx, hstate, hcost⟩ := hplace.exists_node
  have ha : t.actions[i]? = some t.actions[i] := Array.getElem?_eq_getElem hi
  rw [extend?, successor?, ha, hx]
  simp only [Option.bind_eq_bind, Option.bind_some, hstate, hplace.onPath?_eq_some _ hplace.lt_size]
  split
  · split
    · exact ⟨g, rfl, h, hplace⟩
    · let y : Branch κ := ⟨t.actions[i].apply n.state, some place, some i, Scale.add x.cost t.actions[i].cost⟩
      have hy : (g.nodes.push y)[g.nodes.size]? = some y := Array.getElem?_push_size
      refine ⟨g.push y, rfl, h.push (hcost ▸ rfl) ?_, hplace.push y⟩
      exact hcost ▸ .step hy rfl hplace.lt_size rfl hi (hplace.push y)
  · exact ⟨g, rfl, h, hplace⟩

/-- Continuing a node by actions adds all nodes that do so. -/
theorem extendAll (h : g.Follows t agenda) (hplace : Stands t g.nodes cost place n) {actions : List Nat}
    (hactions : ∀ i ∈ actions, i < t.actions.size) : ∃ g', actions.foldlM (Arena.extend? t place) g = some g' ∧
      g'.Follows t (agenda.pushAll (actions.filterMap (successor? t cost n))) := by
  induction actions generalizing g agenda with
  | nil => exact ⟨g, rfl, h⟩
  | cons i actions ih =>
    obtain ⟨hi, hactions⟩ := List.forall_mem_cons.1 hactions
    obtain ⟨g₁, hextend, hfollows, hkept⟩ := h.extend hplace hi
    obtain ⟨g₂, hrest, hfollows⟩ := ih hfollows hkept hactions
    rw [List.foldlM_cons, hextend]
    refine ⟨g₂, hrest, ?_⟩
    rw [List.filterMap_cons]
    cases hsuccessor : successor? t cost n i with
    | none =>
      rw [hsuccessor] at hfollows
      exact hfollows
    | some p =>
      rw [hsuccessor] at hfollows
      exact hfollows

theorem searchFrom?_eq_some {b : Bounds κ} {plans expansions : Nat} {best : Option κ} (h : g.Follows t agenda) :
    searchFrom? t b plans expansions best g = some (searchFrom t b plans expansions best agenda) := by
  fun_induction searchFrom t b plans expansions best agenda generalizing g with
  | case1 =>
    rw [searchFrom?]
  | case2 _ _ _ _ hpop =>
    rw [searchFrom?, h.pop_none hpop]
  | case3 _ _ _ _ e f hpop hexcluded =>
    obtain ⟨e', f', hpop', hcost, -⟩ := h.pop_some hpop
    rw [searchFrom?, hpop']
    simp only [hcost, hexcluded, if_true]
  | case4 _ _ _ _ e f hpop hexcluded hgoal found ending hfound ih =>
    obtain ⟨e', f', hpop', hcost, hstands, hrest⟩ := h.pop_some hpop
    obtain ⟨x, hx, hstate, -⟩ := hstands.exists_node
    have hrun := ih hrest
    rw [hfound] at hrun
    rw [searchFrom?, hpop']
    simp only [hcost, hexcluded, hx, Option.bind_eq_bind, Option.bind_some, hstate, hgoal, if_true,
      hstands.names?_eq_some hstands.lt_size, hrun]
    rw [Node.plan, List.map_reverse]
    rfl
  | case5 _ _ _ e f hpop hexcluded hgoal =>
    obtain ⟨e', f', hpop', hcost, hstands, -⟩ := h.pop_some hpop
    obtain ⟨x, hx, hstate, -⟩ := hstands.exists_node
    rw [searchFrom?, hpop']
    simp only [hcost, hexcluded, hx, Option.bind_eq_bind, Option.bind_some, hstate, hgoal]
    rfl
  | case6 _ _ _ e f hpop hexcluded hgoal expansions ih =>
    obtain ⟨e', f', hpop', hcost, hstands, hrest⟩ := h.pop_some hpop
    obtain ⟨x, hx, hstate, -⟩ := hstands.exists_node
    have hactions : ∀ i ∈ t.actionNumbers, i < t.actions.size := fun i hi => List.mem_range.1 hi
    obtain ⟨g', hextend, hfollows⟩ := hrest.extendAll hstands hactions
    rw [searchFrom?, hpop']
    simp only [hcost, hexcluded, hx, Option.bind_eq_bind, Option.bind_some, hstate, hgoal, hextend]
    exact ih hfollows

end Arena.Follows

/-- **The search stays inside its arena**, and finds the same plans. -/
theorem search?_eq_some (t : Ground.Task κ) (b : Bounds κ) : search? t b = some (search t b) := by
  refine Arena.Follows.searchFrom?_eq_some (Arena.Follows.push ⟨.empty, rfl⟩ rfl ?_)
  exact .start Array.getElem?_push_size rfl

end Waymark.Plan
