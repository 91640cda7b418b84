import Mathlib.Data.List.Nodup
import Mathlib.Tactic
import Waymark.Proofs.Ground.Execution

/-!
# Paths of a ground task

What it means to take actions, given by their numbers, one after the other: the states that are visited,
and when that is a plan.

* `Task.visited`: the states on the way of a sequence of actions, with `visited_append`, `visited_take` and
  `exists_step_of_visited`;
* `Task.reachedWithout_of_visited`: relaxed exploration reaches what holds on the way;
* `Task.IsPlanVia`: a sequence of actions is a plan that visits given states;
* `Task.holdsIn`: the fact of a name holds in a state;
* `Task.IsPlan.exists_via`: plans given by names are plans given by numbers;
* `posting`: a domain of two actions, with `exists_plan_posting`.
-/

namespace Waymark.Ground

open Planning Number

namespace Task

variable {κ : Type} {t : Task κ}

/-- The states that actions lead through when they are taken in turn from a state, that state first. There
are none if one of the actions is not applicable. -/
def visited (t : Task κ) (s : State) : List Nat → Option (List State)
  | [] => some [s]
  | i :: is => match t.actions[i]? with
    | some a => if a.applicable s then (s :: ·) <$> t.visited (a.apply s) is else none
    | none => none

/-- The actions are applicable in turn from the initial state, visit the states, and end in a goal. -/
def IsPlanVia (t : Task κ) (is : List Nat) (ss : List State) : Prop :=
  t.visited t.initialState is = some ss ∧ ∃ s, ss.getLast? = some s ∧ t.isGoal s = true

/-- The fact of a name holds. -/
def holdsIn (t : Task κ) (s : State) (name : String) : Bool := (t.facts.indexOf? name).any s.contains

/-! ## Visited states -/

variable {s s' : State} {i k : Nat} {is : List Nat} {ss : List State}

theorem visited_cons :
    t.visited s (i :: is) = some ss ↔
      ∃ a, t.actions[i]? = some a ∧ a.applicable s = true ∧
        ∃ rest, t.visited (a.apply s) is = some rest ∧ ss = s :: rest := by
  rw [visited]
  constructor
  · intro h
    split at h
    · rename_i a ha
      split at h
      · rename_i happ
        obtain ⟨rest, hrest, rfl⟩ := Option.map_eq_some_iff.1 h
        exact ⟨a, ha, happ, rest, hrest, rfl⟩
      · cases h
    · cases h
  · rintro ⟨a, ha, happ, rest, hrest, rfl⟩
    rw [ha]
    show (if a.applicable s then _ else _) = _
    rw [if_pos happ, hrest]
    rfl

/-- The first visited state is the one that the actions start from. -/
theorem head_visited (h : t.visited s is = some ss) : ss.head? = some s := by
  cases is with
  | nil =>
    obtain rfl := Option.some.inj h
    rfl
  | cons i is =>
    obtain ⟨a, -, -, rest, -, rfl⟩ := visited_cons.1 h
    rfl

/-- What two sequences of actions visit, the second one going on from where the first ends. -/
theorem visited_append {js : List Nat} :
    t.visited s (is ++ js) = some ss ↔
      ∃ xs s' rest, t.visited s is = some (xs ++ [s']) ∧ t.visited s' js = some (s' :: rest) ∧
        ss = xs ++ s' :: rest := by
  induction is generalizing s ss with
  | nil =>
    constructor
    · intro h
      cases ss with
      | nil => cases head_visited h
      | cons x rest =>
        obtain rfl := Option.some.inj (head_visited h)
        exact ⟨[], x, rest, rfl, h, rfl⟩
    · rintro ⟨xs, s', rest, hs, hrest, rfl⟩
      have hone : [s] = xs ++ [s'] := Option.some.inj hs
      obtain ⟨rfl, rfl⟩ : xs = [] ∧ s' = s := by
        rw [List.singleton_eq_append_iff] at hone
        simpa [eq_comm] using hone
      exact hrest
  | cons i is ih =>
    rw [List.cons_append, visited_cons]
    constructor
    · rintro ⟨a, ha, happ, rest, hrest, rfl⟩
      obtain ⟨xs, s', rest, hvisited, hjs, rfl⟩ := ih.1 hrest
      exact ⟨s :: xs, s', rest, visited_cons.2 ⟨a, ha, happ, _, hvisited, rfl⟩, hjs, rfl⟩
    · rintro ⟨xs, s', rest, hvisited, hjs, rfl⟩
      obtain ⟨a, ha, happ, others, hothers, hxs⟩ := visited_cons.1 hvisited
      cases xs with
      | nil =>
        obtain ⟨-, rfl⟩ := List.cons.inj hxs
        cases head_visited hothers
      | cons x xs =>
        obtain ⟨rfl, rfl⟩ := List.cons.inj hxs
        exact ⟨a, ha, happ, _, ih.2 ⟨xs, s', rest, hothers, hjs, rfl⟩, rfl⟩

/-- What one more action visits. -/
theorem visited_concat :
    t.visited s (is ++ [i]) = some ss ↔
      ∃ xs s' a, t.visited s is = some (xs ++ [s']) ∧ t.actions[i]? = some a ∧
        a.applicable s' = true ∧ ss = xs ++ [s', a.apply s'] := by
  rw [visited_append]
  constructor
  · rintro ⟨xs, s', rest, hvisited, hi, rfl⟩
    obtain ⟨a, ha, happ, last, hlast, hrest⟩ := visited_cons.1 hi
    obtain rfl := Option.some.inj hlast
    obtain ⟨-, rfl⟩ := List.cons.inj hrest
    exact ⟨xs, s', a, hvisited, ha, happ, rfl⟩
  · rintro ⟨xs, s', a, hvisited, ha, happ, rfl⟩
    exact ⟨xs, s', [a.apply s'], hvisited, visited_cons.2 ⟨a, ha, happ, _, rfl, rfl⟩, rfl⟩

/-- A property that holds of a visited state and is kept by the actions of the task holds of all visited
states. -/
theorem forall_visited {P : State → Prop} (h : t.visited s is = some ss) (hs : P s)
    (hstep : ∀ a ∈ t.actions, ∀ s, P s → a.applicable s = true → P (a.apply s)) : ∀ s' ∈ ss, P s' := by
  induction is generalizing s ss with
  | nil =>
    obtain rfl := Option.some.inj h
    simpa using hs
  | cons i is ih =>
    obtain ⟨a, ha, happ, rest, hrest, rfl⟩ := visited_cons.1 h
    have hnext : P (a.apply s) := hstep a (Array.mem_of_getElem? ha) s hs happ
    exact List.forall_mem_cons.2 ⟨hs, ih hrest hnext⟩

theorem length_visited (h : t.visited s is = some ss) : ss.length = is.length + 1 := by
  induction is generalizing s ss with
  | nil =>
    obtain rfl := Option.some.inj h
    rfl
  | cons i is ih =>
    obtain ⟨a, -, -, rest, hrest, rfl⟩ := visited_cons.1 h
    rw [List.length_cons, List.length_cons, ih hrest]

/-- The first steps visit the first states. -/
theorem visited_take (h : t.visited s is = some ss) (k : Nat) :
    t.visited s (is.take k) = some (ss.take (k + 1)) := by
  induction is generalizing s ss k with
  | nil =>
    obtain rfl := Option.some.inj h
    rw [List.take_nil, List.take_succ_cons, List.take_nil]
    rfl
  | cons i is ih =>
    obtain ⟨a, ha, happ, rest, hrest, rfl⟩ := visited_cons.1 h
    cases k with
    | zero => rfl
    | succ k => exact visited_cons.2 ⟨a, ha, happ, _, ih hrest k, rfl⟩

/-- Each step takes an action that is applicable, to the state after it. -/
theorem exists_step_of_visited (h : t.visited s is = some ss) (hi : is[k]? = some i) :
    ∃ a x, t.actions[i]? = some a ∧ ss[k]? = some x ∧ a.applicable x = true ∧
      ss[k + 1]? = some (a.apply x) := by
  induction is generalizing s ss k with
  | nil => cases hi
  | cons i' is ih =>
    obtain ⟨a, ha, happ, rest, hrest, rfl⟩ := visited_cons.1 h
    cases k with
    | zero =>
      obtain rfl := Option.some.inj hi
      refine ⟨a, s, ha, rfl, happ, ?_⟩
      rw [List.getElem?_cons_succ, ← List.head?_eq_getElem?, head_visited hrest]
    | succ k =>
      rw [List.getElem?_cons_succ] at hi
      obtain ⟨b, x, hb, hx, hstep⟩ := ih hrest hi
      exact ⟨b, x, hb, hx, hstep⟩

/-- A state other than the first one is one that a step leads to. -/
theorem exists_step_to {y : State} (h : t.visited s is = some ss) (hy : ss[k + 1]? = some y) :
    ∃ i a x, is[k]? = some i ∧ t.actions[i]? = some a ∧ ss[k]? = some x ∧ a.applicable x = true ∧
      y = a.apply x := by
  obtain ⟨hlt, -⟩ := List.getElem?_eq_some_iff.1 hy
  rw [length_visited h] at hlt
  have hi : is[k]? = some is[k] := List.getElem?_eq_getElem (Nat.lt_of_succ_lt_succ hlt)
  obtain ⟨a, x, ha, hx, happ, hnext⟩ := exists_step_of_visited h hi
  exact ⟨_, a, x, hi, ha, hx, happ, Option.some.inj (hy.symm.trans hnext)⟩

theorem size_of_mem_visited (h : t.visited s is = some ss) (hs' : s' ∈ ss) :
    s'.words.size = s.words.size := by
  refine forall_visited (P := fun s' => s'.words.size = s.words.size) h rfl ?_ s' hs'
  intro a _ s₁ hs₁ _
  rw [Action.apply, State.size_insertAll, State.size_eraseAll, hs₁]

/-- A fact that an action makes true is one that the action adds in the state before. -/
theorem contains_apply {a : Action κ} {f : Nat} (h : (a.apply s).contains f = true) :
    s.contains f = true ∨ f ∈ a.addedIn s := by
  rw [Action.apply, State.contains_insertAll, State.contains_eraseAll] at h
  rcases h with ⟨h, -⟩ | ⟨h, -⟩
  · exact .inl h
  · exact .inr h

theorem sound_of_mem_visited (ht : t.InRange) (h : t.visited t.initialState is = some ss) (hs' : s' ∈ ss) :
    t.Sound s' :=
  forall_visited h (sound_initialState ht) (fun _ ha _ hs happ => hs.apply ht ha happ) s' hs'

/-- What holds in a state that actions lead to is a fact of the task. -/
theorem lt_size_of_contains (ht : t.InRange) (h : t.visited t.initialState is = some ss) (hs' : s' ∈ ss)
    {f : Nat} (hf : s'.contains f = true) : f < t.facts.size :=
  ((sound_of_mem_visited ht h hs').contains f hf).1

/-- What an action adds in a state holds after it. -/
theorem Sound.contains_apply_of_mem (hs : t.Sound s) {a : Action κ} {f : Nat} (hlt : f < t.facts.size)
    (hf : f ∈ a.addedIn s) : (a.apply s).contains f = true := by
  rw [Action.apply, State.contains_insertAll, State.size_eraseAll, hs.size]
  exact .inr ⟨hf, by omega⟩

/-- **Relaxed exploration covers all runs**: what holds in a state that actions lead to which are not
excluded is reached without the excluded ones. -/
theorem reachedWithout_of_visited {excluded : Array Bool} (ht : t.InRange)
    (h : t.visited t.initialState is = some ss) (his : ∀ i ∈ is, excluded.getD i false = false) :
    ∀ x ∈ ss, ∀ f, x.contains f = true → t.ReachedWithout excluded f := by
  induction is using List.reverseRecOn generalizing ss with
  | nil =>
    obtain rfl := Option.some.inj h
    intro x hx f hf
    obtain rfl := List.mem_singleton.1 hx
    exact reachedWithout_of_init ht (mem_init_of_contains hf)
  | append_singleton is i ih =>
    obtain ⟨xs, x, a, hvisited, ha, happ, rfl⟩ := visited_concat.1 h
    obtain ⟨his, hi⟩ := List.forall_mem_append.1 his
    have hbefore := ih hvisited his
    intro y hy f hf
    rw [List.append_cons, List.mem_append] at hy
    rcases hy with hy | hy
    · exact hbefore y hy f hf
    obtain rfl := List.mem_singleton.1 hy
    have hx := hbefore x (List.mem_append_right _ (List.mem_singleton_self x))
    rcases contains_apply hf with hf | hf
    · exact hx f hf
    · exact reachedWithout_of_relaxedAdds ht (hi i (List.mem_singleton_self i)) ha (mem_relaxedAdds hx happ hf)

/-! ## Names -/

theorem names_name {f : Nat} (hf : f < t.facts.size) : t.facts.Names f (t.facts.name f) := by
  rw [FactTable.Names, FactTable.name, Array.getD_eq_getD_getElem?, Array.getElem?_eq_getElem hf]
  rfl

/-- The fact of a name holds exactly if the state contains it. -/
theorem holdsIn_of_names {f : Nat} {n : String} (hn : t.facts.Names f n) : t.holdsIn s n = s.contains f := by
  rw [holdsIn, FactTable.indexOf?, (t.facts.numbers_eq_some_iff _ _).2 hn]
  rfl

theorem holdsIn_name {f : Nat} (hf : f < t.facts.size) : t.holdsIn s (t.facts.name f) = s.contains f :=
  holdsIn_of_names (names_name hf)

/-- The facts that a ground task mentions are facts of the task. -/
theorem inRange_of_ground [Scale κ] {domain : Domain} {problem : Problem}
    (h : Task.ground domain problem = .ok t) : t.InRange := by
  obtain ⟨n, -, full, hfull, rfl⟩ := exists_named_of_ground h
  exact ⟨hfull.inRange.init, fun a ha => hfull.inRange.adds a (mem_actions_pruned.1 ha).1⟩

/-- The facts that actions and the goal need are facts of the task. -/
structure NeedsInRange (t : Task κ) : Prop where
  actions : ∀ a ∈ t.actions, ∀ f ∈ a.needs, f < t.facts.size
  goal : ∀ f ∈ t.goalNeeds, f < t.facts.size

theorem needsInRange_of_ground [Scale κ] {domain : Domain} {problem : Problem}
    (h : Task.ground domain problem = .ok t) : t.NeedsInRange := by
  obtain ⟨n, -, full, hfull, rfl⟩ := exists_named_of_ground h
  refine ⟨fun a ha f hf => ?_, fun f hf => hfull.goal.lt_size hf⟩
  obtain ⟨na, -, hna⟩ := exists_rel_of_mem hfull.actions.flip (Array.mem_toList_iff.2 (mem_actions_pruned.1 ha).1)
  have hna : ActionNames full.facts a na := hna
  exact hna.condition.lt_size hf

theorem exists_visited_of_steps [Scale κ] {names : List String} {cost cost' : κ}
    (h : Steps t.Takes s cost names s' cost') :
    ∃ is ss, is.map t.actionName = names ∧ t.visited s is = some ss ∧ ss.getLast? = some s' := by
  induction h with
  | refl s cost => exact ⟨[], [s], rfl, rfl, rfl⟩
  | head hstep _ ih =>
    obtain ⟨a, ha, rfl, -, happ, rfl⟩ := hstep
    obtain ⟨is, ss, rfl, hvisited, hlast⟩ := ih
    obtain ⟨i, hi, rfl⟩ := Array.mem_iff_getElem.1 ha
    have hget : t.actions[i]? = some t.actions[i] := Array.getElem?_eq_getElem hi
    refine ⟨i :: is, _ :: ss, ?_, visited_cons.2 ⟨_, hget, happ, ss, hvisited, rfl⟩, ?_⟩
    · rw [List.map_cons, actionName, hget]
      rfl
    · rw [List.getLast?_cons, hlast]
      rfl

/-- A plan given by the names of its actions is one that visits some states. -/
theorem IsPlan.exists_via [Scale κ] {names : List String} {cost : κ} (h : t.IsPlan names cost) :
    ∃ is ss, is.map t.actionName = names ∧ t.IsPlanVia is ss := by
  obtain ⟨s, hsteps, hgoal⟩ := h
  obtain ⟨is, ss, hnames, hvisited, hlast⟩ := exists_visited_of_steps hsteps
  exact ⟨is, ss, hnames, hvisited, s, hlast, hgoal⟩

end Task

/-! ## An example -/

section Posting

/-- A domain in which a letter is drafted and then sent. -/
def posting : Domain where
  name := "posting"
  schemas := [
    { name := "draft", effect := some (.list [.atom "drafted"]) },
    { name := "send", condition := some (.list [.atom "drafted"]), effect := some (.list [.atom "sent"]) }]

/-- The problem to send a letter. -/
def letter : Problem where
  name := "letter"
  domain := "posting"
  goal := .list [.atom "sent"]

variable {κ : Type} [Scale κ]

/-- To draft a letter. -/
def drafting : NamedAction κ := ⟨"(draft)", { effect := [(true, "(drafted)")] }, Scale.ofNat 1⟩

/-- To send a letter that is drafted. -/
def sending : NamedAction κ :=
  ⟨"(send)", { condition := [(true, "(drafted)")], effect := [(true, "(sent)")] }, Scale.ofNat 1⟩

/-- The named task of the domain and the problem. -/
def posted : NamedTask κ := ⟨[], [drafting, sending], [(true, "(sent)")]⟩

theorem instancesAll_posting (actions : List (LiftedAction κ)) (initial : Initial κ) :
    (Setting.of posting letter actions initial).instancesAll posting.types (objectsOf posting letter)
      [⟨"draft", [], [], { literals := [.atom true "drafted" []] }⟩,
        ⟨"send", [], [.atom true "drafted" []], { literals := [.atom true "sent" []] }⟩] =
      .ok [drafting, sending] := by
  -- No predicate is declared, so none is static.
  have hnone (p : String) : (Setting.of posting letter actions initial).statics.contains p = false := by
    show (Std.HashSet.ofList []).contains p = false
    simp
  have hbind {α β : Type} (x : α) (f : α → Except Failure β) :
      ((Except.ok x : Except Failure α) >>= f) = f x := rfl
  simp [hnone, hbind, Setting.instancesAll, Setting.instances, Setting.assignments, Setting.slots,
    Setting.closedChecks, Setting.isStatic, Setting.holdEach, Setting.extend, Setting.namedAll,
    Setting.named, Setting.conditionNamed, Setting.decide, Literal.named, Setting.conditionalNamed,
    Setting.cost, maxActions, Binding.resolveAll]
  rfl

theorem namedTask_posting : NamedTask.of (κ := κ) posting letter = .ok posted := by
  have hactions : posting.schemas.mapM (LiftedAction.read (κ := κ)) =
      .ok [⟨"draft", [], [], { literals := [.atom true "drafted" []] }⟩,
        ⟨"send", [], [.atom true "drafted" []], { literals := [.atom true "sent" []] }⟩] := rfl
  have hinitial : Initial.read (κ := κ) letter.init ∅ = .ok ⟨[], ∅⟩ := rfl
  rw [NamedTask.of, hactions, hinitial]
  dsimp only [bind, Except.bind]
  rw [instancesAll_posting]
  rfl

/-- There is a ground task of which there is a plan. -/
theorem exists_plan_posting :
    ∃ t : Task κ, Task.ground posting letter = .ok t ∧ ∃ is ss, t.IsPlanVia is ss := by
  obtain ⟨t, ht, full, hfull, rfl⟩ := exists_ground_of_named (namedTask_posting (κ := κ))
  have hplan : ∃ cost : κ, posted.IsPlan ["(draft)", "(send)"] cost := by
    refine ⟨_, _, .head ⟨drafting, by simp [posted], rfl, rfl, ?_, rfl⟩
      (.head ⟨sending, by simp [posted], rfl, rfl, ?_, rfl⟩ (.refl ..)), ?_⟩
    · simp [drafting, Rule.Allows, AllHold]
    · simp [drafting, sending, Rule.Allows, AllHold, Signed.Holds, Rule.next, Rule.Causes]
    · simp [sending, posted, AllHold, Signed.Holds, Rule.next, Rule.Causes]
  obtain ⟨cost, hplan⟩ := hplan
  obtain ⟨is, ss, -, hvia⟩ := (hfull.isPlan_iff.2 hplan).exists_via
  exact ⟨_, ht, is, ss, hvia⟩

end Posting

end Waymark.Ground
