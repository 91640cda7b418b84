import Waymark.Proofs.Ground.Numbering
import Waymark.Proofs.Ground.Reach
import Waymark.Proofs.Ground.StateSet

/-!
# Ground tasks and named tasks have the same plans

A state of a ground task stands for the set of the names of its facts. Seen so, its actions do what the
rules of the named task say, and the actions that are dropped as unreachable could never be taken.

* `Task.IsPlan`: a sequence of names leads to the goal of a ground task at a cost;
* `FactTable.atoms`: the set that a state stands for;
* `Task.Sound`: the states that a run can be in;
* `TaskNames.takes`, `TaskNames.takes_of_named`: the steps of both tasks follow each other;
* `TaskNames.isPlan_iff`: a ground task has the plans of the named task.
-/

namespace Waymark.Ground

open Planning Number FactTable

variable {κ : Type}

/-! ## Plans -/

/-- An action of the task leads from one state to another. -/
def Task.Takes (t : Task κ) (s : State) (name : String) (price : κ) (s' : State) : Prop :=
  ∃ a ∈ t.actions, a.name = name ∧ a.cost = price ∧ a.applicable s = true ∧ a.apply s = s'

/-- The names are those of actions that are applicable in turn and lead to the goal. The costs of the
actions are added up in their order. -/
def Task.IsPlan [Scale κ] (t : Task κ) (names : List String) (cost : κ) : Prop :=
  ∃ s, Steps t.Takes t.initialState (Scale.ofNat 0) names s cost ∧ t.isGoal s = true

/-! ## Sets of names -/

/-- The names of the facts that hold. -/
def FactTable.atoms (tbl : FactTable) (s : State) : Set String :=
  {n | ∃ i, tbl.Names i n ∧ s.contains i = true}

section Atoms

variable {tbl : FactTable} {s : State} {i : Nat} {n : String}

theorem FactTable.mem_atoms (h : tbl.Names i n) : n ∈ tbl.atoms s ↔ s.contains i = true := by
  constructor
  · rintro ⟨j, hj, hs⟩
    rwa [h.unique hj]
  · exact fun hs => ⟨i, h, hs⟩

theorem FactTable.Names.eq_iff {j : Nat} {m : String} (hi : tbl.Names i n) (hj : tbl.Names j m) :
    i = j ↔ n = m := by
  constructor
  · rintro rfl
    exact Option.some.inj (hi.symm.trans hj)
  · rintro rfl
    exact hi.unique hj

variable {ps ns : List Nat} {xs : List (Signed String)}

theorem SplitNames.allHold_iff (h : SplitNames tbl ps ns xs) :
    AllHold (tbl.atoms s) xs ↔ (s.containsAll ps && s.containsNone ns) = true := by
  rw [Bool.and_eq_true, State.containsAll_iff, State.containsNone_iff]
  induction h with
  | nil => simp [AllHold]
  | positive hn _ ih =>
    rw [List.forall_mem_cons, and_assoc, ← ih, AllHold, List.forall_mem_cons]
    simp [Signed.Holds, mem_atoms hn, AllHold]
  | negative hn _ ih =>
    rw [List.forall_mem_cons, ← and_left_comm, ← ih, AllHold, List.forall_mem_cons]
    simp [Signed.Holds, mem_atoms hn, AllHold]

theorem SplitNames.mem_positives (h : SplitNames tbl ps ns xs) (hn : tbl.Names i n) :
    i ∈ ps ↔ (true, n) ∈ xs := by
  induction h with
  | nil => simp
  | @positive j m ps ns xs hj _ ih =>
    simp [ih, hn.eq_iff hj]
  | negative _ _ ih => simp [ih]

theorem SplitNames.mem_negatives (h : SplitNames tbl ps ns xs) (hn : tbl.Names i n) :
    i ∈ ns ↔ (false, n) ∈ xs := by
  induction h with
  | nil => simp
  | @negative j m ps ns xs hj _ ih =>
    simp [ih, hn.eq_iff hj]
  | positive _ _ ih => simp [ih]

theorem SplitNames.exists_names (h : SplitNames tbl ps ns xs) {x : Signed String} (hx : x ∈ xs) :
    ∃ i, tbl.Names i x.2 := by
  induction h with
  | nil => simp at hx
  | positive hn _ ih =>
    rcases List.mem_cons.1 hx with rfl | hx
    · exact ⟨_, hn⟩
    · exact ih hx
  | negative hn _ ih =>
    rcases List.mem_cons.1 hx with rfl | hx
    · exact ⟨_, hn⟩
    · exact ih hx

theorem SplitNames.lt_size (h : SplitNames tbl ps ns xs) (hi : i ∈ ps) : i < tbl.size := by
  induction h with
  | nil => simp at hi
  | positive hn _ ih =>
    rcases List.mem_cons.1 hi with rfl | hi
    · exact hn.lt_size
    · exact ih hi
  | negative _ _ ih => exact ih hi

end Atoms

/-- Related lists have related members. -/
theorem exists_mem_iff_of_forall₂ {α β : Type} {R : α → β → Prop} {P : α → Prop} {Q : β → Prop}
    (h : ∀ a b, R a b → (P a ↔ Q b)) {as : List α} {bs : List β} (hR : List.Forall₂ R as bs) :
    (∃ a ∈ as, P a) ↔ ∃ b ∈ bs, Q b := by
  induction hR with
  | nil => simp
  | cons hab _ ih => simp [h _ _ hab, ih]

/-! ## Actions -/

namespace ActionNames

variable {tbl : FactTable} {a : Action κ} {na : NamedAction κ} {s : State} {i : Nat} {n : String}

theorem allows_iff (h : ActionNames tbl a na) :
    na.rule.Allows (tbl.atoms s) ↔ a.applicable s = true := h.condition.allHold_iff

theorem mem_addedIn (h : ActionNames tbl a na) (hn : tbl.Names i n) :
    i ∈ a.addedIn s ↔ na.rule.Causes (tbl.atoms s) (true, n) := by
  have hfired : (∃ e ∈ a.fired s, i ∈ e.adds) ↔
      ∃ e ∈ a.conditional, e.fires s = true ∧ i ∈ e.adds := by
    simp [Action.fired, and_assoc]
  rw [Action.addedIn, List.mem_append, h.effect.mem_positives hn, List.mem_flatMap, hfired]
  refine or_congr_right (exists_mem_iff_of_forall₂ (fun e c hec => ?_) h.conditional)
  exact and_congr hec.1.allHold_iff.symm (hec.2.mem_positives hn)

theorem mem_deletedIn (h : ActionNames tbl a na) (hn : tbl.Names i n) :
    i ∈ a.deletedIn s ↔ na.rule.Causes (tbl.atoms s) (false, n) := by
  have hfired : (∃ e ∈ a.fired s, i ∈ e.deletes) ↔
      ∃ e ∈ a.conditional, e.fires s = true ∧ i ∈ e.deletes := by
    simp [Action.fired, and_assoc]
  rw [Action.deletedIn, List.mem_append, h.effect.mem_negatives hn, List.mem_flatMap, hfired]
  refine or_congr_right (exists_mem_iff_of_forall₂ (fun e c hec => ?_) h.conditional)
  exact and_congr hec.1.allHold_iff.symm (hec.2.mem_negatives hn)

theorem exists_names_of_causes (h : ActionNames tbl a na) {S : Set String} {x : Signed String}
    (hx : na.rule.Causes S x) : ∃ i, tbl.Names i x.2 := by
  rcases hx with hx | ⟨c, hc, -, hx⟩
  · exact h.effect.exists_names hx
  · obtain ⟨_, -, he⟩ := exists_rel_of_mem h.conditional hc
    exact he.2.exists_names hx

/-- An action does what its rule says. -/
theorem atoms_apply (h : ActionNames tbl a na) (hs : s.words.size = (tbl.size + 63) / 64) :
    tbl.atoms (a.apply s) = na.rule.next (tbl.atoms s) := by
  have hmem {i : Nat} {n : String} (hn : tbl.Names i n) :
      n ∈ tbl.atoms (a.apply s) ↔ n ∈ na.rule.next (tbl.atoms s) := by
    have hlt : i / 64 < s.words.size := by
      have := hn.lt_size
      omega
    rw [mem_atoms hn, Rule.mem_next, ← h.mem_addedIn hn, ← h.mem_deletedIn hn, mem_atoms hn,
      Action.apply, State.contains_insertAll, State.contains_eraseAll, State.size_eraseAll,
      and_iff_left hlt, or_comm]
  ext n
  constructor
  · rintro ⟨i, hn, hi⟩
    exact (hmem hn).1 ⟨i, hn, hi⟩
  · intro hn
    have hex : ∃ i, tbl.Names i n := by
      rcases hn with hc | ⟨⟨i, hi, -⟩, -⟩
      · exact h.exists_names_of_causes hc
      · exact ⟨i, hi⟩
    obtain ⟨i, hi⟩ := hex
    exact (hmem hi).2 hn

theorem mayAdd_lt_size (h : ActionNames tbl a na) (hi : a.mayAdd i = true) : i < tbl.size := by
  rw [Action.mayAdd, Bool.or_eq_true, List.any_eq_true] at hi
  rcases hi with hi | ⟨e, he, hi⟩
  · exact h.effect.lt_size (List.contains_iff_mem.1 hi)
  · obtain ⟨c, -, hec⟩ := exists_rel_of_mem h.conditional.flip he
    exact hec.2.lt_size (List.contains_iff_mem.1 hi)

end ActionNames

/-! ## Steps -/

namespace Task

variable {t : Task κ}

/-- The state has room for all facts, and contains only facts of the task that exploration reaches. -/
structure Sound (t : Task κ) (s : State) : Prop where
  size : s.words.size = (t.facts.size + 63) / 64
  contains : ∀ f, s.contains f = true → f < t.facts.size ∧ t.Reached f

theorem mem_init_of_contains {f : Nat} (h : t.initialState.contains f = true) : f ∈ t.init := by
  rw [initialState, State.ofFacts, State.contains_insertAll, State.contains_empty] at h
  simpa using h.imp id And.left

theorem sound_initialState (ht : t.InRange) : t.Sound t.initialState where
  size := by simp [initialState, State.ofFacts]
  contains f hf := by
    have hinit := mem_init_of_contains hf
    exact ⟨ht.init f hinit, reached_of_init ht hinit⟩

/-- In a state whose facts are all reached, an applicable action adds nothing that it does not add in the
relaxation. -/
theorem mem_relaxedAdds {reached : Nat → Bool} {s : State} {a : Action κ} {f : Nat}
    (hs : ∀ g, s.contains g = true → reached g = true) (happ : a.applicable s = true)
    (hf : f ∈ a.addedIn s) : f ∈ a.relaxedAdds reached := by
  have hreached {fs : List Nat} (hfs : s.containsAll fs = true) : fs.all reached = true :=
    List.all_eq_true.2 fun g hg => hs g (State.containsAll_iff.1 hfs g hg)
  rw [Action.relaxedAdds, if_pos (hreached (Bool.and_eq_true_iff.1 happ).1)]
  rcases List.mem_append.1 hf with hf | hf
  · exact List.mem_append_left _ hf
  · obtain ⟨e, he, hf⟩ := List.mem_flatMap.1 hf
    obtain ⟨he, hfires⟩ := List.mem_filter.1 he
    refine List.mem_append_right _ (List.mem_flatMap.2 ⟨e, List.mem_filter.2 ⟨he, ?_⟩, hf⟩)
    exact hreached (Bool.and_eq_true_iff.1 hfires).1

/-- What an applicable action makes true in a sound state is reached. -/
theorem Sound.apply (ht : t.InRange) {s : State} (hs : t.Sound s) {a : Action κ} (ha : a ∈ t.actions)
    (happ : a.applicable s = true) : t.Sound (a.apply s) where
  size := by simp [Action.apply, hs.size]
  contains f hf := by
    rw [Action.apply, State.contains_insertAll, State.contains_eraseAll] at hf
    rcases hf with ⟨hf, -⟩ | ⟨hf, -⟩
    · exact hs.contains f hf
    · have hadd := mem_relaxedAdds (fun g hg => (hs.contains g hg).2) happ hf
      exact ⟨ht.adds a ha f (mayAdd_of_mem_relaxedAdds hadd), reached_of_relaxedAdds ht ha hadd⟩

/-- Pruning keeps the actions that are applicable in sound states. -/
theorem Sound.mem_pruned {s : State} (hs : t.Sound s) {a : Action κ} (ha : a ∈ t.actions)
    (happ : a.applicable s = true) : a ∈ t.pruned.actions :=
  mem_actions_pruned.2 ⟨ha, fun g hg =>
    (hs.contains g (State.containsAll_iff.1 (Bool.and_eq_true_iff.1 happ).1 g hg)).2⟩

/-- Sound states that stand for the same set are equal. -/
theorem Sound.eq_of_atoms {s s' : State} (hs : t.Sound s) (hs' : t.Sound s')
    (h : t.facts.atoms s = t.facts.atoms s') : s = s' := by
  refine State.ext_contains (hs.size.trans hs'.size.symm) fun f => ?_
  rw [Bool.eq_iff_iff]
  constructor
  · intro hf
    obtain ⟨n, hn⟩ := exists_names (hs.contains f hf).1
    exact (mem_atoms hn).1 (h ▸ (mem_atoms hn).2 hf)
  · intro hf
    obtain ⟨n, hn⟩ := exists_names (hs'.contains f hf).1
    exact (mem_atoms hn).1 (h ▸ (mem_atoms hn).2 hf)

end Task

namespace TaskNames

variable {t : Task κ} {n : NamedTask κ} (h : TaskNames t n)
include h

theorem inRange : t.InRange where
  init f hf := by
    obtain ⟨m, -, hm⟩ := exists_rel_of_mem h.init.flip hf
    exact FactTable.Names.lt_size hm
  adds a ha f hf := by
    obtain ⟨na, -, hna⟩ := exists_rel_of_mem h.actions.flip (Array.mem_toList_iff.2 ha)
    exact ActionNames.mayAdd_lt_size hna hf

theorem atoms_initialState : t.facts.atoms t.initialState = n.initial := by
  ext m
  constructor
  · rintro ⟨i, hi, hs⟩
    obtain ⟨m', hm', hn⟩ := exists_rel_of_mem h.init.flip (Task.mem_init_of_contains hs)
    rwa [show m = m' from (hi.eq_iff hn).1 rfl]
  · intro hm
    obtain ⟨i, hi, hn⟩ := exists_rel_of_mem h.init hm
    refine ⟨i, hn, ?_⟩
    rw [Task.initialState, State.ofFacts, State.contains_insertAll, State.size_empty]
    have := FactTable.Names.lt_size hn
    exact .inr ⟨hi, by omega⟩

theorem isGoal_iff {s : State} : t.isGoal s = true ↔ AllHold (t.facts.atoms s) n.goal :=
  h.goal.allHold_iff.symm

theorem takes {s s' : State} {name : String} {price : κ} (hs : t.Sound s)
    (hstep : t.pruned.Takes s name price s') :
    t.Sound s' ∧ n.Takes (t.facts.atoms s) name price (t.facts.atoms s') := by
  obtain ⟨a, ha, rfl, rfl, happ, rfl⟩ := hstep
  have hmem := (Task.mem_actions_pruned.1 ha).1
  obtain ⟨na, hna, hn⟩ := exists_rel_of_mem h.actions.flip (Array.mem_toList_iff.2 hmem)
  have hn : ActionNames t.facts a na := hn
  exact ⟨hs.apply h.inRange hmem happ, na, hna, hn.name.symm, hn.cost.symm, hn.allows_iff.2 happ,
    (hn.atoms_apply hs.size).symm⟩

theorem takes_of_named {s : State} {S' : Set String} {name : String} {price : κ} (hs : t.Sound s)
    (hstep : n.Takes (t.facts.atoms s) name price S') :
    ∃ s', t.pruned.Takes s name price s' ∧ t.Sound s' ∧ t.facts.atoms s' = S' := by
  obtain ⟨na, hna, rfl, rfl, happ, rfl⟩ := hstep
  obtain ⟨a, ha, hn⟩ := exists_rel_of_mem h.actions hna
  have hmem := Array.mem_toList_iff.1 ha
  have happ := hn.allows_iff.1 happ
  exact ⟨a.apply s, ⟨a, hs.mem_pruned hmem happ, hn.name, hn.cost, happ, rfl⟩,
    hs.apply h.inRange hmem happ, hn.atoms_apply hs.size⟩

theorem isPlan_iff [Scale κ] {names : List String} {cost : κ} :
    t.pruned.IsPlan names cost ↔ n.IsPlan names cost := by
  have hstart : t.Sound t.initialState ∧ t.facts.atoms t.initialState = n.initial :=
    ⟨Task.sound_initialState h.inRange, h.atoms_initialState⟩
  constructor
  · rintro ⟨s, hs, hgoal⟩
    obtain ⟨S, hS, hsound, rfl⟩ := hs.simulate n.Takes
      (fun s S => t.Sound s ∧ t.facts.atoms s = S) (by
        rintro s _ name price s' ⟨hs, rfl⟩ hstep
        obtain ⟨hs', htakes⟩ := h.takes hs hstep
        exact ⟨_, htakes, hs', rfl⟩) hstart
    exact ⟨_, hS, h.isGoal_iff.1 hgoal⟩
  · rintro ⟨S, hS, hgoal⟩
    obtain ⟨s, hs, hsound, rfl⟩ := hS.simulate t.pruned.Takes
      (fun S s => t.Sound s ∧ t.facts.atoms s = S) (by
        rintro _ s name price S' ⟨hs, rfl⟩ hstep
        exact h.takes_of_named hs hstep) hstart
    exact ⟨s, hs, h.isGoal_iff.2 hgoal⟩

end TaskNames

/-! ## Grounding -/

section Ground

variable [Scale κ] {domain : Domain} {problem : Problem}

/-- A domain and a problem have a ground task exactly if they have a named one. The ground task is what
pruning leaves of one whose numbers stand for its names. -/
theorem matches_ground :
    Matches (fun (t : Task κ) (n : NamedTask κ) => ∃ full, TaskNames full n ∧ t = full.pruned)
      (Task.ground domain problem) (NamedTask.of domain problem) := by
  have h : Matches TaskNames (Task.groundFully (κ := κ) domain problem) (NamedTask.of domain problem) :=
    matches_groundFully
  unfold Task.ground
  generalize Task.groundFully (κ := κ) domain problem = x at h ⊢
  generalize NamedTask.of (κ := κ) domain problem = y at h ⊢
  rcases x with e | t <;> rcases y with e' | n
  · trivial
  · exact h
  · exact h
  · exact ⟨t, h, rfl⟩

theorem exists_named_of_ground {t : Task κ} (h : Task.ground domain problem = .ok t) :
    ∃ n, NamedTask.of domain problem = .ok n ∧ ∃ full, TaskNames full n ∧ t = full.pruned :=
  matches_ground.exists_right h

theorem exists_ground_of_named {n : NamedTask κ} (h : NamedTask.of domain problem = .ok n) :
    ∃ t, Task.ground domain problem = .ok t ∧ ∃ full, TaskNames full n ∧ t = full.pruned :=
  matches_ground.exists_left h

end Ground

end Waymark.Ground
