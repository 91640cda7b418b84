import Mathlib.Tactic
import Waymark.Proofs.Landmark.Finish

/-!
# Steps that achieve landmarks

The first action of a run that may add one of some facts, none of which holds initially, needs only what
other actions reach. So it is among the first achievers, whether it adds one of the facts or not: what it
adds under a condition may be withheld. A fact that is out of reach without the actions that may add some
others holds only after one of these was taken.

* `FirstAdder`: the first step that takes an action which may add one of some facts, with
  `FirstAdder.mem_firstAchievers`;
* `exists_adder_of_contains`, `exists_adder_of_not_reached`: what must have been taken before a fact holds;
* `FirstMet`: the point of a run at which a landmark is met first;
* `Withheld`: a step of a run that could have met a landmark and does not;
* `FirstMet.exists_firstAchiever`, `FirstMet.mayMeet`: what is taken up to the point at which a landmark is
  met first.
-/

namespace Waymark.Landmark

open Ground

variable {κ : Type} {s : Survey κ} {t : Ground.Task κ} {fs is : List Nat} {ss : List State} {i k : Nat}

/-! ## Actions that may add facts -/

theorem mem_adders {a : Action κ} (ha : t.actions[i]? = some a) :
    i ∈ t.adders fs ↔ ∃ f ∈ fs, a.mayAdd f = true := by
  rw [Task.adders, List.mem_filter, ha]
  have hi : i ∈ t.actionNumbers := List.mem_range.2 (Array.getElem?_eq_some_iff.1 ha).1
  rw [and_iff_right hi]
  exact List.any_eq_true

/-- A fact that an action makes true is one that it may add. -/
theorem mayAdd_of_contains_apply {a : Action κ} {x : State} {f : Nat} (happ : a.applicable x = true)
    (hx : x.contains f = false) (hf : (a.apply x).contains f = true) : a.mayAdd f = true := by
  have hadd := (Task.contains_apply hf).resolve_left (by rw [hx]; exact Bool.false_ne_true)
  have hrelaxed : f ∈ a.relaxedAdds fun _ => true := Task.mem_relaxedAdds (fun _ _ => rfl) happ hadd
  exact Task.mayAdd_of_mem_relaxedAdds hrelaxed

/-- The actions that are excluded are those that are listed. -/
theorem getD_excluded (size : Nat) (actions : List Nat) {i : Nat} (hi : i < size) :
    (actions.foldl (fun mask i => mask.setIfInBounds i true) (Array.replicate size false)).getD i false =
      decide (i ∈ actions) := by
  have hfold (mask : Array Bool) (hmask : mask.size = size) :
      (actions.foldl (fun mask i => mask.setIfInBounds i true) mask).getD i false =
        (decide (i ∈ actions) || mask.getD i false) := by
    induction actions generalizing mask with
    | nil => simp
    | cons j actions ih =>
      rw [List.foldl_cons, ih _ (by simpa using hmask)]
      by_cases hij : j = i
      · subst hij
        simp [hmask, hi]
      · simp [hij, Ne.symm hij]
  rw [hfold _ Array.size_replicate, Array.getD_eq_getD_getElem?, Array.getElem?_replicate, if_pos hi]
  exact Bool.or_false _

/-- The marks of the actions that may add one of the facts. -/
def Survey.adderMask (s : Survey κ) (fs : List Nat) : Array Bool :=
  (s.task.adders fs).foldl (fun mask i => mask.setIfInBounds i true)
    (Array.replicate s.task.actions.size false)

/-- A run of actions none of which may add one of the facts takes no marked action. -/
theorem getD_adderMask (hvisited : s.task.visited s.task.initialState is = some ss)
    (his : ∀ i ∈ is, i ∉ s.task.adders fs) : ∀ i ∈ is, (s.adderMask fs).getD i false = false := by
  intro i hi
  obtain ⟨k, hk⟩ := List.getElem?_of_mem hi
  obtain ⟨a, -, ha, -⟩ := Task.exists_step_of_visited hvisited hk
  rw [Survey.adderMask, getD_excluded _ _ (Array.getElem?_eq_some_iff.1 ha).1, decide_eq_false (his i hi)]

/-! ## First steps -/

/-- Step `k` takes an action that may add one of the facts, and no step before it does. -/
structure FirstAdder (t : Ground.Task κ) (fs is : List Nat) (k i : Nat) : Prop where
  taken : is[k]? = some i
  adder : i ∈ t.adders fs
  before : ∀ j ∈ is.take k, j ∉ t.adders fs

theorem exists_firstAdder (hi : is[k]? = some i) (hadder : i ∈ t.adders fs) :
    ∃ j ≤ k, ∃ i', FirstAdder t fs is j i' := by
  induction is generalizing k with
  | nil => cases hi
  | cons i₀ is ih =>
    by_cases hfirst : i₀ ∈ t.adders fs
    · exact ⟨0, Nat.zero_le k, i₀, rfl, hfirst, nofun⟩
    cases k with
    | zero =>
      obtain rfl := Option.some.inj hi
      exact absurd hadder hfirst
    | succ k =>
      rw [List.getElem?_cons_succ] at hi
      obtain ⟨j, hj, i', hi', hadder', hbefore⟩ := ih hi
      exact ⟨j + 1, Nat.succ_le_succ hj, i', hi', hadder', List.forall_mem_cons.2 ⟨hfirst, hbefore⟩⟩

/-- What holds in the first state holds initially. -/
theorem isInitial_of_contains (hvisited : t.visited t.initialState is = some ss) {f : Nat} {y : State}
    (hy : ss[0]? = some y) (hyf : y.contains f = true) : t.isInitial f = true := by
  rw [← List.head?_eq_getElem?, Task.head_visited hvisited] at hy
  obtain rfl := Option.some.inj hy
  exact List.contains_iff_mem.2 (Task.mem_init_of_contains hyf)

/-- Before a fact holds that does not hold initially, an action was taken that may add it. -/
theorem exists_adder_of_contains (hvisited : t.visited t.initialState is = some ss) {f : Nat} {y : State}
    (hf : f ∈ fs) (hinitial : t.isInitial f = false) (hy : ss[k]? = some y) (hyf : y.contains f = true) :
    ∃ j < k, ∃ i, is[j]? = some i ∧ i ∈ t.adders fs := by
  induction k generalizing y with
  | zero =>
    rw [isInitial_of_contains hvisited hy hyf] at hinitial
    cases hinitial
  | succ k ih =>
    obtain ⟨i, a, x, hi, ha, hx, happ, rfl⟩ := Task.exists_step_to hvisited hy
    rcases Bool.eq_false_or_eq_true (x.contains f) with hxf | hxf
    · obtain ⟨j, hj, found⟩ := ih hx hxf
      exact ⟨j, Nat.lt_succ_of_lt hj, found⟩
    · have hadd : a.mayAdd f = true := mayAdd_of_contains_apply happ hxf hyf
      exact ⟨k, Nat.lt_succ_self k, i, hi, (mem_adders ha).2 ⟨f, hf, hadd⟩⟩

section Reached

variable (ht : s.task.InRange) (hvisited : s.task.visited s.task.initialState is = some ss)
include ht hvisited

/-- Before a fact holds that is out of reach without the actions that may add one of some facts, one of
these actions was taken. -/
theorem exists_adder_of_not_reached {f : Nat} {y : State} (hf : (s.layersAvoiding fs).reached f = false)
    (hy : ss[k]? = some y) (hyf : y.contains f = true) : ∃ j < k, ∃ i, is[j]? = some i ∧ i ∈ s.task.adders fs := by
  by_contra hnone
  push Not at hnone
  have hprefix := Task.visited_take hvisited k
  have hbefore : ∀ i ∈ is.take k, i ∉ s.task.adders fs := by
    intro i hi
    obtain ⟨j, hj, rfl⟩ := List.mem_take_iff_getElem.1 hi
    exact hnone j (by omega) _ (List.getElem?_eq_getElem (by omega))
  have hmem : y ∈ ss.take (k + 1) :=
    List.mem_of_getElem? ((List.getElem?_take_of_lt (Nat.lt_succ_self k)).trans hy)
  have hreached : (s.layersAvoiding fs).reached f = true :=
    Task.reachedWithout_of_visited ht hprefix (getD_adderMask hprefix hbefore) y hmem f hyf
  rw [hf] at hreached
  cases hreached

/-- The first action that may add one of some facts is among their first achievers. -/
theorem FirstAdder.mem_firstAchievers (h : FirstAdder s.task fs is k i) :
    i ∈ s.firstAchievers fs ∧ ∃ x, ss[k]? = some x ∧ ∀ p ∈ s.needs i, x.contains p = true := by
  obtain ⟨a, x, ha, hx, happ, -⟩ := Task.exists_step_of_visited hvisited h.taken
  have hneeds : s.needs i = a.needs := by rw [Survey.needs, ha]; rfl
  have hholds := State.containsAll_iff.1 (Bool.and_eq_true_iff.1 happ).1
  have hprefix := Task.visited_take hvisited k
  have hmem : x ∈ ss.take (k + 1) :=
    List.mem_of_getElem? ((List.getElem?_take_of_lt (Nat.lt_succ_self k)).trans hx)
  have hreached := Task.reachedWithout_of_visited ht hprefix (getD_adderMask hprefix h.before) x hmem
  rw [hneeds]
  refine ⟨List.mem_filter.2 ⟨h.adder, ?_⟩, x, hx, hholds⟩
  rw [hneeds]
  exact List.all_eq_true.2 fun p hp => hreached p (hholds p hp)

/-- What some first achiever of facts that do not hold initially needs holds on the way to one of them. -/
theorem Survey.exists_firstAchiever_of_met (hinitial : ∀ f ∈ fs, s.task.isInitial f = false)
    (hmet : ∃ y ∈ ss, ∃ f ∈ fs, y.contains f = true) :
    ∃ i ∈ s.firstAchievers fs, ∃ y ∈ ss, ∀ p ∈ s.needs i, y.contains p = true := by
  obtain ⟨y, hy, f, hf, hyf⟩ := hmet
  obtain ⟨k, hk⟩ := List.getElem?_of_mem hy
  obtain ⟨j, -, i, hi, hadder⟩ := exists_adder_of_contains hvisited hf (hinitial f hf) hk hyf
  obtain ⟨j, -, i, hfirst⟩ := exists_firstAdder hi hadder
  obtain ⟨hmem, x, hx, hneeds⟩ := hfirst.mem_firstAchievers ht hvisited
  exact ⟨i, hmem, x, List.mem_of_getElem? hx, hneeds⟩

end Reached

/-! ## Landmarks on a run -/

/-- Some effect of the action, be it under a condition, adds a fact of the landmark. -/
def MayMeet (t : Ground.Task κ) (a : Action κ) (l : Landmark) : Prop :=
  ∃ name ∈ l.facts, ∃ f, t.facts.indexOf? name = some f ∧ a.mayAdd f = true

/-- Step `k` takes an action that may add a fact of the landmark, and none of its facts holds after it. -/
def Withheld (t : Ground.Task κ) (is : List Nat) (ss : List State) (l : Landmark) (k : Nat) : Prop :=
  ∃ i a y, is[k]? = some i ∧ t.actions[i]? = some a ∧ MayMeet t a l ∧ ss[k + 1]? = some y ∧ ¬ Met t [y] l

/-- The landmark is met in state `k`. -/
def MetAt (t : Ground.Task κ) (ss : List State) (l : Landmark) (k : Nat) : Prop :=
  ∃ x, ss[k]? = some x ∧ Met t [x] l

/-- State `k` is the first one in which the landmark is met. -/
structure FirstMet (t : Ground.Task κ) (ss : List State) (l : Landmark) (k : Nat) : Prop where
  met : MetAt t ss l k
  before : ¬ Met t (ss.take k) l

/-- No effect under a condition adds a fact of the landmark. -/
def AddedOutright (t : Ground.Task κ) (l : Landmark) : Prop :=
  ∀ a ∈ t.actions, ∀ e ∈ a.conditional, ∀ f ∈ e.adds, t.facts.name f ∉ l.facts

variable {l : Landmark}

theorem Met.mono {xs ys : List State} (h : Met t xs l) (hsub : xs ⊆ ys) : Met t ys l := by
  obtain ⟨name, hname, x, hx, hholds⟩ := h
  exact ⟨name, hname, x, hsub hx, hholds⟩

/-- A landmark that is met in no earlier state is not met in one of them. -/
theorem not_met_of_take {x : State} {j : Nat} (h : ¬ Met t (ss.take k) l) (hj : j < k) (hx : ss[j]? = some x) :
    ¬ Met t [x] l := by
  have hmem : x ∈ ss.take k := List.mem_of_getElem? ((List.getElem?_take_of_lt hj).trans hx)
  exact fun hmet => h (hmet.mono (List.cons_subset.2 ⟨hmem, List.nil_subset _⟩))

/-- What no effect under a condition adds is not withheld. -/
theorem AddedOutright.not_withheld (h : AddedOutright t l) (ht : t.InRange)
    (hvisited : t.visited t.initialState is = some ss) : ¬ Withheld t is ss l k := by
  rintro ⟨i, a, y, hi, ha, ⟨name, hname, f, hf, hadd⟩, hy, hnot⟩
  obtain ⟨b, x, hb, hx, -, hnext⟩ := Task.exists_step_of_visited hvisited hi
  obtain rfl := Option.some.inj (ha.symm.trans hb)
  obtain rfl := Option.some.inj (hy.symm.trans hnext)
  have hmem := Array.mem_of_getElem? ha
  have hlt := ht.adds a hmem f hadd
  have hnamed : t.facts.name f = name :=
    Option.some.inj ((Task.names_name hlt).symm.trans ((t.facts.numbers_eq_some_iff name f).1 hf))
  -- The fact is added whatever holds, so it holds after the step.
  have hadds : f ∈ a.adds := by
    rw [Action.mayAdd, Bool.or_eq_true, List.any_eq_true] at hadd
    rcases hadd with hadd | ⟨e, he, hadd⟩
    · exact List.contains_iff_mem.1 hadd
    · exact absurd (hnamed ▸ hname) (h a hmem e he f (List.contains_iff_mem.1 hadd))
  refine hnot ⟨name, hname, _, List.mem_singleton_self _, ?_⟩
  rw [← hnamed, Task.holdsIn_name hlt]
  have hsound := Task.sound_of_mem_visited ht hvisited (List.mem_of_getElem? hx)
  exact hsound.contains_apply_of_mem hlt (List.mem_append_left _ hadds)

/-! ## Landmarks of candidates -/

variable {c : Candidate} (hc : ∀ f ∈ c.facts, f < s.task.facts.size)
include hc

/-- An action may meet the landmark of a candidate if it may add one of its facts. -/
theorem mayMeet_landmark {id : Nat} {a : Action κ} :
    MayMeet s.task a (s.landmark id c) ↔ ∃ f ∈ c.facts, a.mayAdd f = true := by
  have hfacts : (s.landmark id c).facts = c.facts.map s.task.facts.name := rfl
  have hindex {f : Nat} (hf : f ∈ c.facts) : s.task.facts.indexOf? (s.task.facts.name f) = some f :=
    (s.task.facts.numbers_eq_some_iff _ _).2 (Task.names_name (hc f hf))
  constructor
  · rintro ⟨name, hname, g, hg, hadd⟩
    obtain ⟨f, hf, rfl⟩ := List.mem_map.1 (hfacts ▸ hname)
    obtain rfl := Option.some.inj ((hindex hf).symm.trans hg)
    exact ⟨f, hf, hadd⟩
  · rintro ⟨f, hf, hadd⟩
    exact ⟨_, hfacts ▸ List.mem_map_of_mem hf, f, hindex hf, hadd⟩

/-- A landmark none of whose facts holds initially is not met in the first state. -/
theorem not_metAt_zero {id : Nat} (hvisited : s.task.visited s.task.initialState is = some ss)
    (hinitial : ∀ f ∈ c.facts, s.task.isInitial f = false) : ¬ MetAt s.task ss (s.landmark id c) 0 := by
  rintro ⟨y, hy, hmet⟩
  obtain ⟨f, hf, x, hx, hxf⟩ := (met_landmark hc).1 hmet
  obtain rfl := List.mem_singleton.1 hx
  have hfalse := hinitial f hf
  rw [isInitial_of_contains hvisited hy hxf] at hfalse
  cases hfalse

/-- A step that takes an action which may add a fact of a candidate withholds its landmark, unless the
landmark is met after the step. -/
theorem met_or_withheld (id : Nat) (hvisited : s.task.visited s.task.initialState is = some ss)
    (hi : is[k]? = some i) (hadder : i ∈ s.task.adders c.facts) :
    ∃ y, ss[k + 1]? = some y ∧
      (Met s.task [y] (s.landmark id c) ∨ Withheld s.task is ss (s.landmark id c) k) := by
  obtain ⟨a, x, ha, -, -, hy⟩ := Task.exists_step_of_visited hvisited hi
  refine ⟨_, hy, or_iff_not_imp_left.2 fun hnot => ⟨i, a, _, hi, ha, ?_, hy, hnot⟩⟩
  exact (mayMeet_landmark hc).2 ((mem_adders ha).1 hadder)

/-- The step that meets a landmark first takes one of the actions that may add its facts. The first step
that does so takes a first achiever. That is the same step, or the landmark was withheld there. -/
theorem FirstMet.exists_firstAchiever {id : Nat} (ht : s.task.InRange)
    (hvisited : s.task.visited s.task.initialState is = some ss)
    (h : FirstMet s.task ss (s.landmark id c) (k + 1)) :
    ∃ i, is[k]? = some i ∧ i ∈ s.task.adders c.facts ∧
      ∃ j ≤ k, ∃ i', is[j]? = some i' ∧ i' ∈ s.firstAchievers c.facts ∧
        (∃ x, ss[j]? = some x ∧ ∀ p ∈ s.needs i', x.contains p = true) ∧
        (j = k ∨ Withheld s.task is ss (s.landmark id c) j) := by
  obtain ⟨⟨y, hy, hmet⟩, hbefore⟩ := h
  obtain ⟨i, a, x, hi, ha, hx, happ, rfl⟩ := Task.exists_step_to hvisited hy
  obtain ⟨f, hf, z, hz, hzf⟩ := (met_landmark hc).1 hmet
  obtain rfl := List.mem_singleton.1 hz
  have hxf : x.contains f = false := by
    rw [Bool.eq_false_iff]
    refine fun hholds => not_met_of_take hbefore (Nat.lt_succ_self k) hx ((met_landmark hc).2 ?_)
    exact ⟨f, hf, x, List.mem_singleton_self x, hholds⟩
  have hadder := (mem_adders ha).2 ⟨f, hf, mayAdd_of_contains_apply happ hxf hzf⟩
  obtain ⟨j, hj, i', hfirst⟩ := exists_firstAdder hi hadder
  obtain ⟨hmem, hneeds⟩ := hfirst.mem_firstAchievers ht hvisited
  refine ⟨i, hi, hadder, j, hj, i', hfirst.taken, hmem, hneeds, ?_⟩
  refine (Nat.eq_or_lt_of_le hj).imp_right fun hlt => ?_
  obtain ⟨y, hy, hstep⟩ := met_or_withheld hc id hvisited hfirst.taken hfirst.adder
  exact hstep.resolve_left (not_met_of_take hbefore (Nat.succ_lt_succ hlt) hy)

/-- The action that meets a landmark first may add one of its facts. -/
theorem FirstMet.mayMeet {id : Nat} (ht : s.task.InRange) (hvisited : s.task.visited s.task.initialState is = some ss)
    (h : FirstMet s.task ss (s.landmark id c) (k + 1)) {a : Action κ} (hi : is[k]? = some i)
    (ha : s.task.actions[i]? = some a) : MayMeet s.task a (s.landmark id c) := by
  obtain ⟨i', hi', hadder, -⟩ := h.exists_firstAchiever hc ht hvisited
  obtain rfl := Option.some.inj (hi.symm.trans hi')
  exact (mayMeet_landmark hc).2 ((mem_adders ha).1 hadder)

end Waymark.Landmark
