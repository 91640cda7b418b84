import Mathlib.Data.Finset.Card
import Mathlib.Tactic
import Waymark.Ground.Layers

/-!
# Relaxed exploration is closed

The exploration of the relaxation stops only where no action adds a fact without a layer. Each round
but the last gives a layer to some fact, so that the rounds that it has are enough, and what it has
reached at the end is closed under the actions.

* `Layers.reached_assign`: what a round reaches;
* `reachedWithout_of_init`, `reachedWithout_of_relaxedAdds`: the facts that hold initially have layers,
  and so has what an action adds whose needs have layers, even while other actions are excluded;
* `reached_of_init`, `reached_of_relaxedAdds`: the same if no action is excluded;
* `reachedWithout_least`: nothing else has a layer.
-/

namespace Waymark.Ground

namespace Layers

variable {layers : Layers} {depth f : Nat}

theorem size_assign (layers : Layers) (depth : Nat) (facts : List Nat) :
    (layers.assign depth facts).size = layers.size := by
  induction facts generalizing layers with
  | nil => rfl
  | cons g facts ih =>
    rw [assign, List.foldl_cons]
    exact (ih _).trans Array.size_modify

theorem reached_modify (layers : Layers) (depth f g : Nat) :
    reached (layers.modify g (·.or (some depth))) f = true ↔
      layers.reached f = true ∨ f = g ∧ f < layers.size := by
  simp only [reached, Array.getD_eq_getD_getElem?, Array.getElem?_modify]
  by_cases hg : g = f
  · subst hg
    rcases lt_or_ge g layers.size with h | h
    · cases hl : layers[g] <;> simp [hl, h]
    · simp [h]
  · simp [hg, Ne.symm hg]

theorem reached_assign (layers : Layers) (depth : Nat) (facts : List Nat) (f : Nat) :
    (layers.assign depth facts).reached f = true ↔
      layers.reached f = true ∨ f ∈ facts ∧ f < layers.size := by
  induction facts generalizing layers with
  | nil => simp [assign]
  | cons g facts ih =>
    have hcons : layers.assign depth (g :: facts) =
        assign (layers.modify g (·.or (some depth))) depth facts := rfl
    rw [hcons, ih, reached_modify, Array.size_modify, List.mem_cons]
    tauto

/-- The facts without a layer. -/
def missing (layers : Layers) : Finset Nat :=
  (Finset.range layers.size).filter fun f => layers.reached f = false

theorem mem_missing : f ∈ layers.missing ↔ f < layers.size ∧ layers.reached f = false := by
  simp [missing]

theorem card_missing_le (layers : Layers) : layers.missing.card ≤ layers.size := by
  simpa [missing] using Finset.card_filter_le (Finset.range layers.size) _

/-- A round that finds a fact without a layer leaves fewer of them. -/
theorem card_missing_assign_lt {facts : List Nat} (hf : f ∈ facts) (hm : f ∈ layers.missing) :
    (layers.assign depth facts).missing.card < layers.missing.card := by
  refine Finset.card_lt_card (Finset.ssubset_iff_subset_ne.2 ⟨fun g hg => ?_, fun he => ?_⟩)
  · obtain ⟨hlt, hr⟩ := mem_missing.1 hg
    rw [size_assign] at hlt
    refine mem_missing.2 ⟨hlt, ?_⟩
    by_contra hn
    have := (reached_assign layers depth facts g).2 (.inl (by simpa using hn))
    simp [hr] at this
  · rw [← he] at hm
    have := (reached_assign layers depth facts f).2
      (.inr ⟨hf, by simpa [size_assign] using (mem_missing.1 hm).1⟩)
    simp [(mem_missing.1 hm).2] at this

end Layers

namespace Task

variable {κ : Type} {t : Task κ}

/-- The facts that hold initially and those that actions add are facts of the task. -/
structure InRange (t : Task κ) : Prop where
  init : ∀ f ∈ t.init, f < t.facts.size
  adds : ∀ a ∈ t.actions, ∀ f, a.mayAdd f = true → f < t.facts.size

theorem mayAdd_of_mem_relaxedAdds {a : Action κ} {reached : Nat → Bool} {f : Nat}
    (h : f ∈ a.relaxedAdds reached) : a.mayAdd f = true := by
  unfold Action.relaxedAdds at h
  split at h
  · rw [Action.mayAdd, Bool.or_eq_true, List.any_eq_true]
    rcases List.mem_append.1 h with h | h
    · exact .inl (List.contains_iff_mem.2 h)
    · obtain ⟨e, he, hf⟩ := List.mem_flatMap.1 h
      exact .inr ⟨e, (List.mem_filter.1 he).1, List.contains_iff_mem.2 hf⟩
  · simp at h

/-- An action that adds something in the relaxation needs only what is reached. -/
theorem needs_of_mem_relaxedAdds {a : Action κ} {reached : Nat → Bool} {f : Nat} (h : f ∈ a.relaxedAdds reached) :
    ∀ g ∈ a.needs, reached g = true := by
  unfold Action.relaxedAdds at h
  split at h
  · rename_i hneeds
    exact List.all_eq_true.1 hneeds
  · cases h

/-- Where more is reached an action adds no less. -/
theorem relaxedAdds_mono {a : Action κ} {reached reached' : Nat → Bool} {f : Nat}
    (h : ∀ g, reached g = true → reached' g = true) (hf : f ∈ a.relaxedAdds reached) :
    f ∈ a.relaxedAdds reached' := by
  have hall {fs : List Nat} (hfs : fs.all reached = true) : fs.all reached' = true :=
    List.all_eq_true.2 fun g hg => h g (List.all_eq_true.1 hfs g hg)
  unfold Action.relaxedAdds at hf ⊢
  split at hf
  case isFalse => cases hf
  rename_i hneeds
  rw [if_pos (hall hneeds)]
  refine List.mem_append.2 ((List.mem_append.1 hf).imp_right fun hf => ?_)
  obtain ⟨e, he, hf⟩ := List.mem_flatMap.1 hf
  obtain ⟨he, hfires⟩ := List.mem_filter.1 he
  exact List.mem_flatMap.2 ⟨e, List.mem_filter.2 ⟨he, hall hfires⟩, hf⟩

variable {excluded : Array Bool}

theorem mem_newFacts {layers : Layers} {f : Nat} :
    f ∈ t.newFacts excluded layers ↔
      (∃ i a, excluded.getD i false = false ∧ t.actions[i]? = some a ∧
        f ∈ a.relaxedAdds layers.reached) ∧ layers.reached f = false := by
  rw [newFacts, List.mem_flatMap]
  constructor
  · rintro ⟨i, -, hf⟩
    split at hf
    · cases hf
    · rename_i hexcluded
      split at hf
      · rename_i a ha
        obtain ⟨hadd, hr⟩ := List.mem_filter.1 hf
        exact ⟨⟨i, a, by simpa using hexcluded, ha, hadd⟩, by simpa using hr⟩
      · cases hf
  · rintro ⟨⟨i, a, hexcluded, ha, hadd⟩, hr⟩
    refine ⟨i, List.mem_range.2 (Array.getElem?_eq_some_iff.1 ha).1, ?_⟩
    simp [hexcluded, ha, hadd, hr]

/-- With more rounds than there are facts without layers, exploration ends where nothing is new. -/
theorem growLayers_spec (ht : t.InRange) (rounds depth : Nat) (layers : Layers)
    (hsize : layers.size = t.facts.size) (hrounds : layers.missing.card < rounds) :
    t.newFacts excluded (t.growLayers excluded rounds depth layers) = [] ∧
      ∀ f, layers.reached f = true → (t.growLayers excluded rounds depth layers).reached f = true := by
  induction rounds generalizing depth layers with
  | zero => omega
  | succ rounds ih =>
    unfold growLayers
    split
    · rename_i h
      exact ⟨h, fun _ hf => hf⟩
    · rename_i facts hne
      obtain ⟨f, hf⟩ := List.exists_mem_of_ne_nil _ hne
      obtain ⟨⟨i, a, -, ha, hadd⟩, hr⟩ := mem_newFacts.1 hf
      have hlt : f < layers.size :=
        hsize ▸ ht.adds a (Array.mem_of_getElem? ha) f (mayAdd_of_mem_relaxedAdds hadd)
      have hfewer : (layers.assign depth (t.newFacts excluded layers)).missing.card < layers.missing.card :=
        Layers.card_missing_assign_lt hf (Layers.mem_missing.2 ⟨hlt, hr⟩)
      obtain ⟨hnew, hmono⟩ := ih (depth + 1) (layers.assign depth (t.newFacts excluded layers))
        (by rw [Layers.size_assign, hsize]) (by omega)
      exact ⟨hnew, fun g hg => hmono g ((Layers.reached_assign ..).2 (.inl hg))⟩

/-- The fact has a layer while some actions are never taken. -/
def ReachedWithout (t : Task κ) (excluded : Array Bool) (f : Nat) : Prop :=
  (t.relaxedLayers excluded).reached f = true

/-- The fact has a layer. -/
def Reached (t : Task κ) (f : Nat) : Prop := t.ReachedWithout #[] f

section Closed

variable (ht : t.InRange) {f : Nat}
include ht

private theorem relaxedLayers_spec (excluded : Array Bool) :
    t.newFacts excluded (t.relaxedLayers excluded) = [] ∧ ∀ f ∈ t.init, t.ReachedWithout excluded f := by
  let start := Layers.assign (Array.replicate t.facts.size none) 0 t.init
  have hsize : start.size = t.facts.size := by simp [start, Layers.size_assign]
  have hcard := Layers.card_missing_le start
  obtain ⟨hnew, hmono⟩ := growLayers_spec ht (t.facts.size + 1) 1 start hsize (by omega)
  refine ⟨hnew, fun f hf => hmono f ((Layers.reached_assign ..).2 (.inr ⟨hf, ?_⟩))⟩
  simpa using ht.init f hf

theorem reachedWithout_of_init (hf : f ∈ t.init) : t.ReachedWithout excluded f :=
  (relaxedLayers_spec ht excluded).2 f hf

/-- What an action adds whose needs are reached is reached, unless the action is excluded. -/
theorem reachedWithout_of_relaxedAdds {i : Nat} {a : Action κ} (hi : excluded.getD i false = false)
    (ha : t.actions[i]? = some a) (hf : f ∈ a.relaxedAdds (t.relaxedLayers excluded).reached) :
    t.ReachedWithout excluded f := by
  by_contra hn
  have hnew := mem_newFacts.2 ⟨⟨i, a, hi, ha, hf⟩, by simpa [ReachedWithout] using hn⟩
  rw [(relaxedLayers_spec ht excluded).1] at hnew
  simp at hnew

theorem reached_of_init (hf : f ∈ t.init) : t.Reached f := reachedWithout_of_init ht hf

theorem reached_of_relaxedAdds {a : Action κ} (ha : a ∈ t.actions)
    (hf : f ∈ a.relaxedAdds (t.relaxedLayers #[]).reached) : t.Reached f := by
  obtain ⟨i, hi, rfl⟩ := Array.mem_iff_getElem.1 ha
  exact reachedWithout_of_relaxedAdds ht rfl (Array.getElem?_eq_getElem hi) hf

end Closed

/-! ## Nothing else is reached -/

section Least

variable {P : Nat → Prop}
  (hclosed : ∀ i a, excluded.getD i false = false → t.actions[i]? = some a → ∀ reached : Nat → Bool,
    (∀ f, reached f = true → P f) → ∀ f ∈ a.relaxedAdds reached, P f)
include hclosed

theorem growLayers_least (rounds depth : Nat) (layers : Layers) (hlayers : ∀ f, layers.reached f = true → P f) :
    ∀ f, (t.growLayers excluded rounds depth layers).reached f = true → P f := by
  induction rounds generalizing depth layers with
  | zero => exact hlayers
  | succ rounds ih =>
    unfold growLayers
    split
    · exact hlayers
    · refine ih _ _ fun f hf => ?_
      rcases (Layers.reached_assign ..).1 hf with hf | ⟨hf, -⟩
      · exact hlayers f hf
      · obtain ⟨⟨i, a, hi, ha, hadd⟩, -⟩ := mem_newFacts.1 hf
        exact hclosed i a hi ha layers.reached hlayers f hadd

/-- **What is reached is least**: it lies in every set that holds the initial facts and is closed under the
actions that are not excluded. -/
theorem reachedWithout_least (hinit : ∀ f ∈ t.init, P f) {f : Nat} (hf : t.ReachedWithout excluded f) : P f := by
  refine growLayers_least hclosed _ _ _ (fun f hf => ?_) f hf
  rcases (Layers.reached_assign ..).1 hf with hf | ⟨hf, -⟩
  · have hnone : Layers.reached (Array.replicate t.facts.size none) f = false := by
      rw [Layers.reached, Array.getD_eq_getD_getElem?, Array.getElem?_replicate]
      split <;> rfl
    rw [hnone] at hf
    cases hf
  · exact hinit f hf

end Least

theorem mem_actions_pruned {a : Action κ} :
    a ∈ t.pruned.actions ↔ a ∈ t.actions ∧ ∀ f ∈ a.needs, t.Reached f := by
  simp [pruned, Reached, ReachedWithout]

/-- Actions that need no fact are not dropped. -/
theorem pruned_eq_self (h : t.actions.toList.all (·.needs.isEmpty) = true) : t.pruned = t := by
  have hall : (t.actions.filter fun a => a.needs.all (t.relaxedLayers #[]).reached) = t.actions := by
    refine Array.filter_eq_self.2 fun a ha => ?_
    rw [List.isEmpty_iff.1 (List.all_eq_true.1 h a (Array.mem_toList_iff.2 ha)), List.all_nil]
  rw [pruned, hall]

end Task

end Waymark.Ground
