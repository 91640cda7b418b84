import Mathlib.Tactic
import Waymark.Proofs.Checked
import Waymark.Proofs.Ground.WellFormed

/-!
# Exploration stays inside its arrays

Relaxed exploration with checked accesses: whether a fact is reached is read from its place in the layers, and a
layer is written into the place of its fact. In a task that is in bounds all these places exist.

* `Task.relaxedLayers?`, `relaxedLayers?_eq_some`: the layers, whatever actions are excluded;
* `Task.pruned?`, `pruned?_eq_some`: the task without the actions that need a fact without a layer.
-/

namespace Waymark.Ground

variable {κ : Type} {t : Task κ} {a : Action κ} {layers : Layers} {excluded : Array Bool}

/-! ## Checked exploration -/

/-- Reads whether a fact has a layer. -/
def Layers.reached? (layers : Layers) (fact : Nat) : Option Bool := layers[fact]?.map Option.isSome

/-- Reads whether a fact has no layer. -/
def Layers.lacks? (layers : Layers) (fact : Nat) : Option Bool := (! ·) <$> layers.reached? fact

/-- Writes a layer into the places of facts that have none. -/
def Layers.assign? (layers : Layers) (depth : Nat) (facts : List Nat) : Option Layers :=
  facts.foldlM (fun ls f => modifyAt? ls f (·.or (some depth))) layers

/-- The facts that an action adds in the relaxation. -/
def Action.relaxedAdds? (a : Action κ) (layers : Layers) : Option (List Nat) := do
  if ← a.needs.allM layers.reached? then
    let fired ← a.conditional.filterM fun e => e.needs.allM layers.reached?
    return a.adds ++ fired.flatMap (·.adds)
  else return []

namespace Task

/-- The facts without a layer that the actions add next. -/
def newFacts? (t : Task κ) (excluded : Array Bool) (layers : Layers) : Option (List Nat) := do
  let found ← t.actionNumbers.mapM fun i => do
    if excluded.getD i false then return []
    else
      let a ← t.actions[i]?
      let facts ← a.relaxedAdds? layers
      facts.filterM layers.lacks?
  return found.flatten

/-- Adds layers until no action adds a fact. -/
def growLayers? (t : Task κ) (excluded : Array Bool) : Nat → Nat → Layers → Option Layers
  | 0, _, layers => some layers
  | rounds + 1, depth, layers => do
    match ← t.newFacts? excluded layers with
    | [] => return layers
    | facts => t.growLayers? excluded rounds (depth + 1) (← layers.assign? depth facts)

/-- The layer of each fact while the actions marked in `excluded` are never taken. -/
def relaxedLayers? (t : Task κ) (excluded : Array Bool) : Option Layers := do
  t.growLayers? excluded (t.facts.size + 1) 1
    (← Layers.assign? (Array.replicate t.facts.size none) 0 t.init)

/-- The task without the actions that need a fact which the relaxation does not reach. -/
def pruned? (t : Task κ) : Option (Task κ) := do
  let layers ← t.relaxedLayers? #[]
  let actions ← t.actions.toList.filterM fun a => a.needs.allM layers.reached?
  return { t with actions := actions.toArray }

end Task

/-! ## All places exist -/

theorem Layers.reached?_eq_some {f : Nat} (hf : f < layers.size) : layers.reached? f = some (layers.reached f) := by
  rw [reached?, getElem?_eq_some_getD hf none]
  rfl

theorem Layers.lacks?_eq_some {f : Nat} (hf : f < layers.size) :
    layers.lacks? f = some (!layers.reached f) := by
  rw [lacks?, reached?_eq_some hf]
  rfl

theorem Layers.assign?_eq_some {facts : List Nat} (h : ∀ f ∈ facts, f < layers.size) (depth : Nat) :
    layers.assign? depth facts = some (layers.assign depth facts) := by
  refine (foldlM_eq_some (fun ls : Layers => ls.size = layers.size) rfl fun f hf ls hls => ⟨?_, ?_⟩).1
  · exact modifyAt?_eq_some (hls ▸ h f hf) _
  · rw [Array.size_modify, hls]

theorem Layers.allM_reached?_eq_some {facts : List Nat} (h : ∀ f ∈ facts, f < layers.size) :
    facts.allM layers.reached? = some (facts.all layers.reached) :=
  allM_eq_some fun f hf => reached?_eq_some (h f hf)

namespace Task

section InBounds

variable (ht : t.InBounds)
include ht

theorem relaxedAdds?_eq_some (hsize : layers.size = t.facts.size) (ha : a ∈ t.actions) :
    a.relaxedAdds? layers = some (a.relaxedAdds layers.reached) := by
  have hfired : a.conditional.filterM (fun e => e.needs.allM layers.reached?) =
      some (a.conditional.filter fun e => e.needs.all layers.reached) :=
    filterM_eq_some fun e he => Layers.allM_reached?_eq_some fun f hf => hsize ▸ ht.condition ha he hf
  rw [Action.relaxedAdds?, Layers.allM_reached?_eq_some fun f hf => hsize ▸ ht.needs ha hf, hfired]
  unfold Action.relaxedAdds
  cases a.needs.all layers.reached <;> rfl

theorem newFacts?_eq_some (excluded : Array Bool) (hsize : layers.size = t.facts.size) :
    t.newFacts? excluded layers = some (t.newFacts excluded layers) := by
  rw [newFacts?, newFacts, List.flatMap_def]
  refine congrArg (Option.bind · fun found => some found.flatten) (mapM_eq_some fun i hi => ?_)
  obtain ⟨a, hget⟩ : ∃ a, t.actions[i]? = some a := ⟨_, Array.getElem?_eq_getElem (List.mem_range.1 hi)⟩
  have ha : a ∈ t.actions := Array.mem_of_getElem? hget
  split
  · rfl
  rw [hget, Option.bind_eq_bind, Option.bind_some, relaxedAdds?_eq_some ht hsize ha]
  exact filterM_eq_some fun f hf =>
    Layers.lacks?_eq_some (hsize ▸ ht.mayAdd ha (mayAdd_of_mem_relaxedAdds hf))

theorem growLayers?_eq_some (excluded : Array Bool) (rounds depth : Nat) (hsize : layers.size = t.facts.size) :
    t.growLayers? excluded rounds depth layers = some (t.growLayers excluded rounds depth layers) := by
  induction rounds generalizing depth layers with
  | zero => rfl
  | succ rounds ih =>
    rw [growLayers?, newFacts?_eq_some ht excluded hsize, growLayers]
    have hnew {f : Nat} (hf : f ∈ t.newFacts excluded layers) : f < layers.size :=
      hsize ▸ ht.inRange.lt_size_of_mem_newFacts hf
    cases hfacts : t.newFacts excluded layers with
    | nil => rfl
    | cons f facts =>
      have hassign : layers.assign? depth (f :: facts) = some (layers.assign depth (f :: facts)) :=
        Layers.assign?_eq_some (fun g hg => hnew (hfacts ▸ hg)) depth
      simp only [Option.bind_eq_bind, Option.bind_some, hassign]
      exact ih _ ((Layers.size_assign ..).trans hsize)

/-- **Exploration stays inside its arrays**, whatever actions are excluded. -/
theorem relaxedLayers?_eq_some (excluded : Array Bool) :
    t.relaxedLayers? excluded = some (t.relaxedLayers excluded) := by
  have hinit : ∀ f ∈ t.init, f < (Array.replicate t.facts.size (none : Option Nat)).size := by
    rw [Array.size_replicate]
    exact ht.init
  rw [relaxedLayers?, Layers.assign?_eq_some hinit]
  exact growLayers?_eq_some ht excluded _ _ size_startLayers

/-- A task out of bounds has no layer for the fact that its action needs. -/
example : (⟨.empty, [], #[⟨"(send)", [0], [], [], [], [], 1⟩], [], []⟩ : Ground.Task Nat).relaxedLayers? #[] = none :=
  rfl

/-- Dropping actions reads only layers of facts. -/
theorem pruned?_eq_some : t.pruned? = some t.pruned := by
  have hsize : (t.relaxedLayers #[]).size = t.facts.size := (isLayering_relaxedLayers ht.inRange #[]).size
  have hkept : t.actions.toList.filterM (fun a => a.needs.allM (t.relaxedLayers #[]).reached?) =
      some (t.actions.toList.filter fun a => a.needs.all (t.relaxedLayers #[]).reached) :=
    filterM_eq_some fun a ha => Layers.allM_reached?_eq_some fun f hf =>
      hsize ▸ ht.needs (Array.mem_toList_iff.1 ha) hf
  rw [pruned?, relaxedLayers?_eq_some ht]
  simp only [Option.bind_eq_bind, Option.bind_some, hkept, pruned]
  rw [← Array.toList_filter, Array.toArray_toList]
  rfl

end InBounds

end Task

end Waymark.Ground
