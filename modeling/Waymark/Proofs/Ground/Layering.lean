import Waymark.Number.Double
import Waymark.Proofs.Ground.Propositional

/-!
# The layers of relaxed exploration

The exploration runs in rounds until a round finds nothing new. What it leaves are layers that are told
by two laws: a fact has layer 0 if it holds initially, and layer `k + 1` if it has no earlier layer and an
action adds it over the facts of layers up to `k`. Layers with these laws are unique, so that other tasks
with the same laws have the same layers.

* `Layers.layer?`, `Layers.Within`: the layer of a fact, and the facts of layers up to a number;
* `Task.AddsOver`: what actions add once given facts are reached;
* `Task.Explores`: the rounds of the exploration, as many as it takes;
* `Task.LayeredBelow`: what each round preserves;
* `Task.IsLayering`: the two laws, with `IsLayering.layer?_eq`;
* `Task.Executable`: actions that can be taken in turn.
-/

namespace Waymark.Ground

namespace Layers

variable {layers : Layers} {depth k f : Nat}

/-- The layer of a fact. -/
def layer? (layers : Layers) (f : Nat) : Option Nat := layers.getD f none

/-- The fact has a layer, and one up to `k`. -/
def Within (layers : Layers) (k f : Nat) : Prop := ∃ j ≤ k, layers.layer? f = some j

theorem reached_iff_layer? : layers.reached f = true ↔ ∃ k, layers.layer? f = some k :=
  Option.isSome_iff_exists

theorem Within.reached (h : layers.Within k f) : layers.reached f = true := by
  obtain ⟨j, -, hj⟩ := h
  exact reached_iff_layer?.2 ⟨j, hj⟩

/-- Layers of one size that give every fact the same layer are the same. -/
theorem eq_of_layer? {layers' : Layers} (hsize : layers.size = layers'.size)
    (h : ∀ f, layers.layer? f = layers'.layer? f) : layers = layers' := by
  refine Array.ext hsize fun f hf hf' => ?_
  have := h f
  rwa [layer?, layer?, Array.getD_eq_getD_getElem?, Array.getD_eq_getD_getElem?,
    Array.getElem?_eq_getElem hf, Array.getElem?_eq_getElem hf'] at this

theorem layer?_modify (layers : Layers) (depth f g : Nat) :
    layer? (layers.modify g (·.or (some depth))) f =
      if f = g ∧ f < layers.size then (layers.layer? f).or (some depth) else layers.layer? f := by
  simp only [layer?, Array.getD_eq_getD_getElem?, Array.getElem?_modify]
  rcases lt_or_ge f layers.size with hf | hf
  · by_cases hg : g = f
    · simp [hg, hf]
    · simp [hg, Ne.symm hg]
  · simp [Nat.not_lt.2 hf]

/-- A round gives its number to the facts that it finds and that have no layer. -/
theorem layer?_assign (layers : Layers) (depth : Nat) (facts : List Nat) (f : Nat) :
    (layers.assign depth facts).layer? f =
      if f ∈ facts ∧ f < layers.size then (layers.layer? f).or (some depth) else layers.layer? f := by
  induction facts generalizing layers with
  | nil => simp [assign]
  | cons g facts ih =>
    have hcons : layers.assign depth (g :: facts) =
        assign (layers.modify g (·.or (some depth))) depth facts := rfl
    rw [hcons, ih, layer?_modify, Array.size_modify]
    rcases lt_or_ge f layers.size with hlt | hle
    · by_cases hg : f = g
      · subst hg
        by_cases hf : f ∈ facts <;> simp [hlt, hf]
      · simp [hg]
    · simp [Nat.not_lt.2 hle]

end Layers

/-! ## What actions add over given facts -/

variable {κ : Type}

/-- The action adds the fact once those of `P` are reached: they have all that the action needs, and the
fact is added without a condition or under one whose positive part they have too. -/
def Action.AddsOver (a : Action κ) (P : Nat → Prop) (f : Nat) : Prop :=
  (∀ g ∈ a.needs, P g) ∧ (f ∈ a.adds ∨ ∃ e ∈ a.conditional, (∀ g ∈ e.needs, P g) ∧ f ∈ e.adds)

theorem Action.mem_relaxedAdds_iff {a : Action κ} {reached : Nat → Bool} {f : Nat} :
    f ∈ a.relaxedAdds reached ↔ a.AddsOver (fun g => reached g = true) f := by
  rw [relaxedAdds, AddsOver, ← List.all_eq_true]
  split
  · rename_i h
    simp only [h, true_and, List.mem_append, List.mem_flatMap, List.mem_filter, List.all_eq_true, and_assoc]
  · rename_i h
    simp [h]

theorem Action.AddsOver.mono {a : Action κ} {P Q : Nat → Prop} {f : Nat} (h : a.AddsOver P f)
    (hPQ : ∀ g, P g → Q g) : a.AddsOver Q f :=
  ⟨fun g hg => hPQ g (h.1 g hg),
    h.2.imp_right fun ⟨e, he, hneeds, hf⟩ => ⟨e, he, fun g hg => hPQ g (hneeds g hg), hf⟩⟩

namespace Task

variable {t t' : Task κ} {excluded excluded' : Array Bool} {layers layers' : Layers} {depth k f : Nat}

/-- The action is one of the task, and not everywhere excluded. -/
def Offers (t : Task κ) (excluded : Array Bool) (a : Action κ) : Prop :=
  ∃ i, excluded.getD i false = false ∧ t.actions[i]? = some a

/-- Some action that is not excluded adds the fact once those of `P` are reached. -/
def AddsOver (t : Task κ) (excluded : Array Bool) (P : Nat → Prop) (f : Nat) : Prop :=
  ∃ a, t.Offers excluded a ∧ a.AddsOver P f

theorem AddsOver.mono {P Q : Nat → Prop} (h : t.AddsOver excluded P f) (hPQ : ∀ g, P g → Q g) :
    t.AddsOver excluded Q f := by
  obtain ⟨a, ha, hf⟩ := h
  exact ⟨a, ha, hf.mono hPQ⟩

theorem addsOver_congr {P Q : Nat → Prop} (hPQ : ∀ g, P g ↔ Q g) :
    t.AddsOver excluded P f ↔ t.AddsOver excluded Q f := by
  rw [funext fun g => propext (hPQ g)]

/-- A round finds the facts without a layer that actions add over those with one. -/
theorem mem_newFacts_iff :
    f ∈ t.newFacts excluded layers ↔
      t.AddsOver excluded (fun g => layers.reached g = true) f ∧ layers.reached f = false := by
  rw [mem_newFacts]
  refine and_congr_left fun _ => ?_
  constructor
  · rintro ⟨i, a, hi, ha, hf⟩
    exact ⟨a, ⟨i, hi, ha⟩, Action.mem_relaxedAdds_iff.1 hf⟩
  · rintro ⟨a, ⟨i, hi, ha⟩, hf⟩
    exact ⟨i, a, hi, ha, Action.mem_relaxedAdds_iff.2 hf⟩

theorem InRange.lt_size_of_mem_newFacts (ht : t.InRange) (hf : f ∈ t.newFacts excluded layers) :
    f < t.facts.size := by
  obtain ⟨⟨i, a, -, ha, hadd⟩, -⟩ := mem_newFacts.1 hf
  exact ht.adds a (Array.mem_of_getElem? ha) f (mayAdd_of_mem_relaxedAdds hadd)

/-! ## The rounds -/

/-- The layers before the first round: the facts that hold initially are in layer 0. -/
def startLayers (t : Task κ) : Layers := Layers.assign (Array.replicate t.facts.size none) 0 t.init

/-- Rounds follow each other until one finds nothing new, the next of them having number `depth`. There is
no bound on how many they are: that the exploration ends is that it explores to some layers. -/
inductive Explores (t : Task κ) (excluded : Array Bool) : Nat → Layers → Layers → Prop
  | done {depth : Nat} {layers : Layers} (h : t.newFacts excluded layers = []) :
      Explores t excluded depth layers layers
  | round {depth : Nat} {layers result : Layers} (h : t.newFacts excluded layers ≠ [])
      (rest : Explores t excluded (depth + 1) (layers.assign depth (t.newFacts excluded layers)) result) :
      Explores t excluded depth layers result

/-- With more rounds than there are facts without layers, the exploration ends by itself. -/
theorem explores_growLayers (ht : t.InRange) (rounds depth : Nat) (layers : Layers)
    (hsize : layers.size = t.facts.size) (hrounds : layers.missing.card < rounds) :
    t.Explores excluded depth layers (t.growLayers excluded rounds depth layers) := by
  induction rounds generalizing depth layers with
  | zero => omega
  | succ rounds ih =>
    unfold growLayers
    split
    · rename_i h
      exact .done h
    · rename_i hne
      obtain ⟨f, hf⟩ := List.exists_mem_of_ne_nil _ hne
      have hmissing : f ∈ layers.missing :=
        Layers.mem_missing.2 ⟨hsize ▸ ht.lt_size_of_mem_newFacts hf, (mem_newFacts_iff.1 hf).2⟩
      have hfewer : (layers.assign depth (t.newFacts excluded layers)).missing.card < layers.missing.card :=
        Layers.card_missing_assign_lt hf hmissing
      exact .round hne (ih (depth + 1) _ (by rw [Layers.size_assign, hsize]) (by omega))

theorem size_startLayers : t.startLayers.size = t.facts.size := by
  rw [startLayers, Layers.size_assign, Array.size_replicate]

/-- The exploration of a task ends. -/
theorem explores_relaxedLayers (ht : t.InRange) (excluded : Array Bool) :
    t.Explores excluded 1 t.startLayers (t.relaxedLayers excluded) := by
  refine explores_growLayers ht _ _ _ size_startLayers ?_
  have := Layers.card_missing_le t.startLayers
  rw [size_startLayers] at this
  exact Nat.lt_succ_of_le this

/-! ## The laws of the layers -/

/-- Layers with two laws: those of layer 0 hold initially, and those of a later layer are added over the
layers before and are in none of these. -/
structure IsLayering (t : Task κ) (excluded : Array Bool) (layers : Layers) : Prop where
  size : layers.size = t.facts.size
  zero : ∀ f, layers.layer? f = some 0 ↔ f ∈ t.init
  succ : ∀ k f, layers.layer? f = some (k + 1) ↔
    ¬ layers.Within k f ∧ t.AddsOver excluded (layers.Within k) f

/-- What holds between the rounds, the next one having number `depth`: the laws, for the layers below it, and
there are no other layers. -/
structure LayeredBelow (t : Task κ) (excluded : Array Bool) (depth : Nat) (layers : Layers) : Prop where
  size : layers.size = t.facts.size
  lt : ∀ k f, layers.layer? f = some k → k < depth
  zero : ∀ f, layers.layer? f = some 0 ↔ f ∈ t.init
  succ : ∀ k f, k + 1 < depth →
    (layers.layer? f = some (k + 1) ↔ ¬ layers.Within k f ∧ t.AddsOver excluded (layers.Within k) f)

theorem LayeredBelow.within_iff (h : t.LayeredBelow excluded depth layers) (hk : depth ≤ k + 1) :
    layers.Within k f ↔ layers.reached f = true := by
  refine ⟨Layers.Within.reached, fun hf => ?_⟩
  obtain ⟨j, hj⟩ := Layers.reached_iff_layer?.1 hf
  exact ⟨j, Nat.le_of_lt_succ ((h.lt j f hj).trans_le hk), hj⟩

theorem layeredBelow_startLayers (ht : t.InRange) : t.LayeredBelow excluded 1 t.startLayers := by
  have hlayer (f : Nat) : t.startLayers.layer? f = if f ∈ t.init then some 0 else none := by
    have hnone : Layers.layer? (Array.replicate t.facts.size none) f = none := by
      rw [Layers.layer?, Array.getD_eq_getD_getElem?, Array.getElem?_replicate]
      split <;> rfl
    rw [startLayers, Layers.layer?_assign, hnone, Array.size_replicate]
    by_cases hf : f ∈ t.init
    · rw [if_pos ⟨hf, ht.init f hf⟩, if_pos hf, Option.none_or]
    · rw [if_neg fun h => hf h.1, if_neg hf]
  refine ⟨size_startLayers, fun k f hk => ?_, fun f => ?_, fun k f hk => by omega⟩
  · rw [hlayer] at hk
    split at hk
    · obtain rfl := Option.some.inj hk
      exact Nat.one_pos
    · cases hk
  · rw [hlayer]
    split <;> simp [*]

/-- A round with number `depth` keeps the layers below it and adds the one with this number. -/
theorem LayeredBelow.layer?_assign (h : t.LayeredBelow excluded depth layers) (ht : t.InRange) (j f : Nat) :
    (layers.assign depth (t.newFacts excluded layers)).layer? f = some j ↔
      layers.layer? f = some j ∨ j = depth ∧ f ∈ t.newFacts excluded layers := by
  rw [Layers.layer?_assign]
  by_cases hf : f ∈ t.newFacts excluded layers
  · have hnone : layers.layer? f = none := by
      have := (mem_newFacts_iff.1 hf).2
      rwa [Layers.reached, Option.isSome_eq_false_iff, Option.isNone_iff_eq_none] at this
    rw [if_pos ⟨hf, h.size ▸ ht.lt_size_of_mem_newFacts hf⟩, hnone]
    simp [hf, eq_comm]
  · simp [hf]

/-- **One round**: where the laws hold below its number, they hold below the next after it. -/
theorem LayeredBelow.round (h : t.LayeredBelow excluded depth layers) (ht : t.InRange) (hdepth : 1 ≤ depth) :
    t.LayeredBelow excluded (depth + 1) (layers.assign depth (t.newFacts excluded layers)) := by
  have hlayer := h.layer?_assign ht
  -- Up to a layer before this round's nothing changes.
  have hwithin {k f : Nat} (hk : k < depth) :
      (layers.assign depth (t.newFacts excluded layers)).Within k f ↔ layers.Within k f := by
    refine exists_congr fun j => and_congr_right fun hj => ?_
    rw [hlayer, or_iff_left fun hnew => by omega]
  refine ⟨by rw [Layers.size_assign, h.size], fun k f hk => ?_, fun f => ?_, fun k f hk => ?_⟩
  · rcases (hlayer k f).1 hk with hk | ⟨rfl, -⟩
    · exact (h.lt k f hk).trans (Nat.lt_succ_self depth)
    · exact Nat.lt_succ_self k
  · rw [hlayer, h.zero, or_iff_left fun hnew => by omega]
  · rw [hwithin (by omega), addsOver_congr (fun g => hwithin (by omega)), hlayer]
    rcases Nat.lt_or_ge (k + 1) depth with hlt | hge
    · rw [h.succ k f hlt, or_iff_left fun hnew => by omega]
    · -- The layer of this round: all that is reached is in a layer up to `k`.
      have hold : ¬ layers.layer? f = some (k + 1) := fun hf => by
        have := h.lt _ f hf
        omega
      have hreached {g : Nat} : layers.Within k g ↔ layers.reached g = true := h.within_iff (by omega)
      rw [or_iff_right hold, hreached, addsOver_congr fun g => hreached, mem_newFacts_iff,
        Bool.not_eq_true]
      have : k + 1 = depth := by omega
      tauto

/-- **The whole exploration**: where the laws hold below the number of the next round, they hold of the
layers that the exploration ends with. -/
theorem LayeredBelow.isLayering {result : Layers} (hrun : t.Explores excluded depth layers result)
    (ht : t.InRange) (h : t.LayeredBelow excluded depth layers) (hdepth : 1 ≤ depth) :
    t.IsLayering excluded result := by
  induction hrun with
  | round hne rest ih => exact ih (h.round ht hdepth) (Nat.le_succ_of_le hdepth)
  | @done depth layers hnew =>
    refine ⟨h.size, h.zero, fun k f => ?_⟩
    rcases Nat.lt_or_ge (k + 1) depth with hlt | hge
    · exact h.succ k f hlt
    · -- No layer has a number as large, and nothing is left for one.
      refine iff_of_false (fun hf => absurd (h.lt _ f hf) (Nat.not_lt.2 hge)) fun ⟨hout, hadds⟩ => ?_
      rw [h.within_iff hge, Bool.not_eq_true] at hout
      have hmem := mem_newFacts_iff.2 ⟨hadds.mono fun g => Layers.Within.reached, hout⟩
      rw [hnew] at hmem
      cases hmem

/-- The layers of a task obey the laws. -/
theorem isLayering_relaxedLayers (ht : t.InRange) (excluded : Array Bool) :
    t.IsLayering excluded (t.relaxedLayers excluded) :=
  (layeredBelow_startLayers ht).isLayering (explores_relaxedLayers ht excluded) ht le_rfl

/-- **The laws leave no choice**: where two tasks hold the same initially, and add the same over facts that
have a layer, their layers are the same. -/
theorem IsLayering.layer?_eq (h : t.IsLayering excluded layers) (h' : t'.IsLayering excluded' layers')
    (hinit : t.init = t'.init)
    (hadds : ∀ P : Nat → Prop, (∀ g, P g → layers.reached g = true) →
      ∀ f, t.AddsOver excluded P f ↔ t'.AddsOver excluded' P f) (f : Nat) :
    layers.layer? f = layers'.layer? f := by
  have hlayer (k : Nat) : ∀ f, layers.layer? f = some k ↔ layers'.layer? f = some k := by
    induction k using Nat.strong_induction_on with
    | _ k ih =>
      intro f
      cases k with
      | zero => rw [h.zero, h'.zero, hinit]
      | succ k =>
        have hwithin (g : Nat) : layers.Within k g ↔ layers'.Within k g :=
          exists_congr fun j => and_congr_right fun hj => ih j (Nat.lt_succ_of_le hj) g
        rw [h.succ, h'.succ, ← hwithin, ← addsOver_congr hwithin,
          hadds _ (fun g => Layers.Within.reached)]
  exact Option.ext fun k => hlayer k f

/-! ## Pruning -/

/-- The marks of the actions that pruning keeps. -/
def keptMarks (t : Task κ) (excluded : Array Bool) : Array Bool :=
  (t.actions.zipIdx.filter fun p => p.1.needs.all (t.relaxedLayers #[]).reached).map
    (excluded.getD ·.2 false)

/-- The actions that pruning keeps, with the numbers that they had before. -/
theorem actions_pruned_eq_map : t.pruned.actions =
    (t.actions.zipIdx.filter fun p => p.1.needs.all (t.relaxedLayers #[]).reached).map (·.1) := by
  rw [pruned]
  conv_lhs => rw [← Array.zipIdx_map_fst 0 t.actions, Array.filter_map]
  rfl

/-- With the marks that are kept, pruning leaves those of the offered actions that need only what is
reached. -/
theorem offers_pruned_keptMarks {a : Action κ} :
    t.pruned.Offers (t.keptMarks excluded) a ↔ t.Offers excluded a ∧ ∀ g ∈ a.needs, t.Reached g := by
  have hkept (i : Nat) : (a, i) ∈ t.actions.zipIdx.filter (fun p => p.1.needs.all (t.relaxedLayers #[]).reached) ↔
      t.actions[i]? = some a ∧ ∀ g ∈ a.needs, t.Reached g := by
    rw [Array.mem_filter, Array.mk_mem_zipIdx_iff_getElem?, List.all_eq_true]
    rfl
  rw [Offers, actions_pruned_eq_map, keptMarks]
  constructor
  · rintro ⟨j, hj, ha⟩
    rw [Array.getElem?_map, Option.map_eq_some_iff] at ha
    obtain ⟨⟨b, i⟩, hb, rfl⟩ := ha
    rw [Array.getD_eq_getD_getElem?, Array.getElem?_map, hb] at hj
    obtain ⟨hi, hneeds⟩ := (hkept i).1 (Array.mem_of_getElem? hb)
    exact ⟨⟨i, hj, hi⟩, hneeds⟩
  · rintro ⟨⟨i, hi, ha⟩, hneeds⟩
    obtain ⟨j, hj⟩ := Array.mem_iff_getElem?.1 ((hkept i).2 ⟨ha, hneeds⟩)
    refine ⟨j, ?_, ?_⟩
    · rw [Array.getD_eq_getD_getElem?, Array.getElem?_map, hj]
      exact hi
    · rw [Array.getElem?_map, hj]
      rfl

/-- Where no action is excluded, all are offered. -/
theorem offers_empty {a : Action κ} : t.Offers #[] a ↔ a ∈ t.actions := by
  rw [Array.mem_iff_getElem?]
  exact exists_congr fun i => and_iff_right rfl

/-- What is reached while actions are excluded is reached without that. -/
theorem ReachedWithout.reached (ht : t.InRange) (h : t.ReachedWithout excluded f) : t.Reached f := by
  refine reachedWithout_least (fun i a _ ha reached hreached f hf => ?_) (fun f => reached_of_init ht) h
  exact reached_of_relaxedAdds ht (Array.mem_of_getElem? ha) (relaxedAdds_mono hreached hf)

theorem InRange.pruned (ht : t.InRange) : t.pruned.InRange :=
  ⟨ht.init, fun a ha => ht.adds a (mem_actions_pruned.1 ha).1⟩

/-- **Pruning keeps the layers**: the actions that it drops never add anything, whatever is excluded. -/
theorem relaxedLayers_pruned (ht : t.InRange)
    (hoffers : ∀ a, t.pruned.Offers excluded' a ↔ t.Offers excluded a ∧ ∀ g ∈ a.needs, t.Reached g) :
    t.pruned.relaxedLayers excluded' = t.relaxedLayers excluded := by
  have hlaws := isLayering_relaxedLayers ht excluded
  have hlaws' := isLayering_relaxedLayers ht.pruned excluded'
  refine Layers.eq_of_layer? (hlaws'.size.trans hlaws.size.symm) fun f => Eq.symm ?_
  refine hlaws.layer?_eq hlaws' rfl (fun P hP f => exists_congr fun a => ?_) f
  rw [hoffers, and_assoc]
  refine and_congr_right fun _ => (and_iff_right_of_imp fun hadds g hg => ?_).symm
  exact ReachedWithout.reached ht (hP g (hadds.1 g hg))

theorem relaxedLayers_pruned_empty (ht : t.InRange) : t.pruned.relaxedLayers #[] = t.relaxedLayers #[] :=
  relaxedLayers_pruned ht fun a => by rw [offers_empty, offers_empty, mem_actions_pruned]

/-- The actions can be taken in turn from a state. -/
def Runs (t : Task κ) : State → List (Action κ) → Prop
  | _, [] => True
  | s, a :: as => a ∈ t.actions ∧ a.applicable s = true ∧ t.Runs (a.apply s) as

/-- The actions can be taken in turn from the initial state. -/
def Executable (t : Task κ) (as : List (Action κ)) : Prop := t.Runs t.initialState as

theorem Sound.runs_pruned_iff (ht : t.InRange) {s : State} (hs : t.Sound s) {as : List (Action κ)} :
    t.pruned.Runs s as ↔ t.Runs s as := by
  induction as generalizing s with
  | nil => exact Iff.rfl
  | cons a as ih =>
    constructor
    · rintro ⟨ha, happ, hrest⟩
      have ha := (mem_actions_pruned.1 ha).1
      exact ⟨ha, happ, (ih (hs.apply ht ha happ)).1 hrest⟩
    · rintro ⟨ha, happ, hrest⟩
      exact ⟨hs.mem_pruned ha happ, happ, (ih (hs.apply ht ha happ)).2 hrest⟩

/-- **Pruning keeps the runs.** -/
theorem executable_pruned_iff (ht : t.InRange) {as : List (Action κ)} :
    t.pruned.Executable as ↔ t.Executable as :=
  (sound_initialState ht).runs_pruned_iff ht

/-- The facts that grounding numbers are in range, also before actions are dropped. -/
theorem inRange_of_groundFully [Number.Scale κ] {domain : Planning.Domain} {problem : Planning.Problem}
    (h : Task.groundFully domain problem = .ok t) : t.InRange := by
  obtain ⟨n, -, hn⟩ := matches_groundFully.exists_right h
  exact TaskNames.inRange hn

/-- **Relaxed exploration is exact, and covers all runs.** For a task whose facts are in range, and whatever
actions are excluded: the exploration ends; its layers obey the two laws; what holds in a state that actions
lead to which are not excluded has a layer; and a task without the actions that need a fact without a layer
has the same layers and the same runs. -/
theorem relaxedLayers_exact (ht : t.InRange) (excluded : Array Bool) :
    t.Explores excluded 1 t.startLayers (t.relaxedLayers excluded) ∧
    (∀ f, (t.relaxedLayers excluded).layer? f = some 0 ↔ f ∈ t.init) ∧
    (∀ k f, (t.relaxedLayers excluded).layer? f = some (k + 1) ↔
      ¬ (t.relaxedLayers excluded).Within k f ∧ t.AddsOver excluded ((t.relaxedLayers excluded).Within k) f) ∧
    (∀ is ss, t.visited t.initialState is = some ss → (∀ i ∈ is, excluded.getD i false = false) →
      ∀ s ∈ ss, ∀ f, s.contains f = true → ∃ k, (t.relaxedLayers excluded).layer? f = some k) ∧
    t.pruned.relaxedLayers (t.keptMarks excluded) = t.relaxedLayers excluded ∧
    t.pruned.relaxedLayers #[] = t.relaxedLayers #[] ∧
    ∀ as, t.pruned.Executable as ↔ t.Executable as := by
  have hlaws := isLayering_relaxedLayers ht excluded
  refine ⟨explores_relaxedLayers ht excluded, hlaws.zero, hlaws.succ, ?_, ?_, relaxedLayers_pruned_empty ht, ?_⟩
  · intro is ss hvisited his s hs f hf
    exact Layers.reached_iff_layer?.1 (reachedWithout_of_visited ht hvisited his s hs f hf)
  · exact relaxedLayers_pruned ht fun a => offers_pruned_keptMarks
  · exact fun as => executable_pruned_iff ht

end Task

/-! ## An example -/

section Undrafted

open Planning Number

/-- The outbox without the action that drafts a message. -/
def undrafted : Domain := { outbox with schemas := outbox.schemas.tail }

/-- The problem to send the message that waits in the queue. -/
def queuedMessage : Problem := { message with init := [atomExpr "queued"] }

variable {κ : Type} [Scale κ]

/-- The ground task of the domain and the problem, before actions are dropped. Nothing can be submitted. -/
def undraftedTask (facts : FactTable) : Task κ where
  facts
  init := [0]
  actions := #[
    { name := "(submit)", needs := [1], forbids := [], adds := [0], deletes := [1]
      conditional := [⟨[0], [], [2, 3], []⟩], cost := Scale.ofNat 1 },
    { name := "(flush)", needs := [0], forbids := [], adds := [2], deletes := [], conditional := []
      cost := Scale.ofNat 1 }]
  goalNeeds := [2]
  goalForbids := []

/-- The message in the queue is sent in the first round. No round reaches a draft, so that the action to
submit one is dropped. -/
theorem exists_groundFully_undrafted : ∃ facts : FactTable,
    Task.groundFully (κ := κ) undrafted queuedMessage = .ok (undraftedTask facts) ∧
    (undraftedTask (κ := κ) facts).relaxedLayers #[] = #[some 0, none, some 1, none] ∧
    (undraftedTask (κ := κ) facts).pruned.actions.size = 1 := by
  let named : NamedTask κ := {
    init := ["(queued)"]
    actions := [
      ⟨"(submit)", ⟨[(true, "(drafted)")], [(false, "(drafted)"), (true, "(queued)")],
        [([(true, "(queued)")], [(true, "(sent)"), (true, "(logged)")])]⟩, Scale.ofNat 1⟩,
      ⟨"(flush)", { condition := [(true, "(queued)")], effect := [(true, "(sent)")] }, Scale.ofNat 1⟩]
    goal := [(true, "(sent)")] }
  have hbare : bareTask undrafted queuedMessage = some named := rfl
  have hplaces : named.places #[] = (undraftedTask, #["(queued)", "(drafted)", "(sent)", "(logged)"]) := by
    simp only [named, NamedTask.places, actionPlaces, effectPlaces, splitPlaces,
      List.mapM_cons, List.mapM_nil, Naming.pure_eq, Naming.bind_eq]
    cbv
  obtain ⟨facts, hnames, hground⟩ := exists_groundFully_of_places hbare hplaces
  refine ⟨facts, hground, ?_⟩
  obtain ⟨names, numbers, hnumbers⟩ := facts
  subst hnames
  have hlayers : (undraftedTask (κ := κ) ⟨_, numbers, hnumbers⟩).relaxedLayers #[] =
      #[some 0, none, some 1, none] := by cbv
  refine ⟨hlayers, ?_⟩
  rw [Task.pruned, hlayers]
  rfl

theorem relaxedLayers_exact_undrafted : ∃ t : Task Double,
    Task.groundFully undrafted queuedMessage = .ok t ∧ t.InRange ∧
    t.actions.size = 2 ∧ t.pruned.actions.size = 1 ∧
    t.relaxedLayers #[] = #[some 0, none, some 1, none] ∧
    t.Explores #[] 1 t.startLayers #[some 0, none, some 1, none] ∧
    t.pruned.relaxedLayers #[] = #[some 0, none, some 1, none] ∧
    ∀ as, t.pruned.Executable as ↔ t.Executable as := by
  obtain ⟨facts, hground, hlayers, hpruned⟩ := exists_groundFully_undrafted (κ := Double)
  have hinrange := Task.inRange_of_groundFully hground
  obtain ⟨hexplores, -, -, -, -, hkept, hruns⟩ := Task.relaxedLayers_exact hinrange #[]
  rw [hlayers] at hexplores hkept
  exact ⟨_, hground, hinrange, rfl, hpruned, hlayers, hexplores, hkept, hruns⟩

end Undrafted

end Waymark.Ground
