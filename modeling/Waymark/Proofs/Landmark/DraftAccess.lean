import Mathlib.Data.List.ReduceOption
import Mathlib.Tactic
import Waymark.Proofs.Ground.LayerAccess
import Waymark.Proofs.Landmark.Methods

/-!
# Drafts stay inside their arrays

What the methods ask of a task and do to a draft, with checked accesses: the layers of facts, the places of
landmarks, the marks of excluded actions. In a survey of a task that is in bounds all places exist, as long as
the draft names facts and landmarks that there are. Exclusion is the first of the methods that are built so.

* `Survey.InBounds`, `Draft.InBounds`: the surveys and drafts that the accesses are about;
* `order?_eq_some`, `layersAvoiding?_eq_some`, `firstAchievers?_eq_some`: the questions and operations;
* `exhaustive?_eq_some`: exclusion.
-/

namespace Waymark.Landmark

open Ground

variable {κ : Type}

/-! ## Checked operations -/

/-- A layer stands before another one. -/
def layerBefore : Option Nat → Option Nat → Bool
  | some a, some b => a < b
  | some _, none => true
  | none, _ => false

namespace Survey

variable (s : Survey κ)

/-- The survey of a task. -/
def of? (task : Ground.Task κ) : Option (Survey κ) := do return ⟨task, ← task.relaxedLayers? #[]⟩

/-- The first layer of the relaxation that holds one of the facts. -/
def earliest? (facts : List Nat) : Option (Option Nat) := do
  let layers ← facts.mapM fun f => s.layers[f]?
  return layers.reduceOption.min?

/-- The draft with an ordering, if the layers agree with it. -/
def order? (d : Draft) (first second : Nat) (kind : OrderKind) : Option Draft := do
  if first = second then return d
  else
    let x ← d.candidates[first]?
    let y ← d.candidates[second]?
    if layerBefore (← s.earliest? x.facts) (← s.earliest? y.facts) then
      if d.orders.contains ⟨first, second, kind⟩ then return d
      else return { d with orders := d.orders ++ [⟨first, second, kind⟩] }
    else return d

/-- The goal is reached in given layers. -/
def goalReached? (layers : Layers) : Option Bool := s.task.goalNeeds.allM layers.reached?

/-- A fact that the relaxation reaches, and that is a goal if it holds initially. -/
def keeps? (fact : Nat) : Option Bool := do
  return (← s.layers.reached? fact) && (!s.task.isInitial fact || s.isGoal fact)

/-- The layers of the relaxation without the actions that may add one of the facts. -/
def layersAvoiding? (facts : List Nat) : Option Layers := do
  let mask ← (s.task.adders facts).foldlM (fun mask i => setAt? mask i true)
    (Array.replicate s.task.actions.size false)
  s.task.relaxedLayers? mask

/-- The facts that an action needs. -/
def needs? (action : Nat) : Option (List Nat) := s.task.actions[action]?.map Action.needs

/-- The actions that may add one of the facts and need nothing that only such actions reach. -/
def firstAchievers? (facts : List Nat) : Option (List Nat) := do
  let layers ← s.layersAvoiding? facts
  (s.task.adders facts).filterM fun a => do (← s.needs? a).allM layers.reached?

/-! ### Exclusion -/

/-- The goals and all other facts that are necessary. -/
def necessaryFacts? : Option (List Nat) := do
  let others ← (List.range s.task.facts.size).filterM fun f => do
    if (← s.keeps? f) && !s.isGoal f then return !(← s.goalReached? (← s.layersAvoiding? [f]))
    else return false
  return s.task.goalNeeds ++ others

/-- Orders a landmark before those that are out of reach without it. -/
def orderByExclusion? (d : Draft) (first : Nat) : Option Draft := do
  let x ← d.candidates[first]?
  if x.facts.all s.task.isInitial then return d
  else
    let layers ← s.layersAvoiding? x.facts
    (List.range d.candidates.size).foldlM (fun d second => do
      if second = first then return d
      else
        let y ← d.candidates[second]?
        if ← y.facts.allM layers.lacks? then s.order? d first second .natural
        else return d) d

/-- The draft of all necessary facts. -/
def exhaustive? : Option Draft := do
  let d := (← s.necessaryFacts?).foldl (fun (d : Draft) f => d.including [f] .fact) {}
  (List.range d.candidates.size).foldlM s.orderByExclusion? d

end Survey

/-! ## All places exist -/

/-- A survey of a task in bounds, with a layer for every fact. -/
structure Survey.InBounds (s : Survey κ) : Prop where
  task : s.task.InBounds
  size_layers : s.layers.size = s.task.facts.size

/-- All landmarks are of facts of the task. -/
def Draft.InBounds (s : Survey κ) (d : Draft) : Prop := ∀ c ∈ d.candidates, ∀ f ∈ c.facts, f < s.task.facts.size

variable {s : Survey κ} {d : Draft}

/-- The survey of a task in bounds is in bounds. -/
theorem Survey.inBounds_of {t : Ground.Task κ} (ht : t.InBounds) : (Survey.of t).InBounds :=
  ⟨ht, (Task.isLayering_relaxedLayers ht.inRange #[]).size⟩

theorem Survey.of?_eq_some {t : Ground.Task κ} (ht : t.InBounds) : Survey.of? t = some (Survey.of t) := by
  rw [Survey.of?, Task.relaxedLayers?_eq_some ht]
  rfl

theorem Draft.InBounds.add (hd : d.InBounds s) {facts : List Nat} (hfacts : ∀ f ∈ facts, f < s.task.facts.size)
    (kind : Kind) : (d.add facts kind).1.InBounds s := by
  intro c hc f hf
  rcases Draft.mem_candidates_add hc with hc | rfl
  · exact hd c hc f hf
  · exact hfacts f (mem_ascending.1 hf)

/-- Only the landmarks of a draft matter. -/
theorem Draft.InBounds.of_eq (hd : d.InBounds s) {d' : Draft} (h : d'.candidates = d.candidates) : d'.InBounds s := by
  rwa [InBounds, h]

theorem Draft.InBounds.order (hd : d.InBounds s) (first second : Nat) (kind : OrderKind) :
    (s.order d first second kind).InBounds s := hd.of_eq (s.candidates_order ..)

/-- The draft of single facts. -/
theorem Draft.InBounds.including_all {facts : List Nat} (hfacts : ∀ f ∈ facts, f < s.task.facts.size) :
    InBounds s (facts.foldl (fun (d : Draft) f => d.including [f] .fact) {}) :=
  List.foldlRecOn (motive := InBounds s) _ _ (by simp [InBounds]) fun _ hd f hf =>
    hd.add (List.forall_mem_singleton.2 (hfacts f hf) : ∀ g ∈ [f], g < s.task.facts.size) .fact

theorem adders_lt {facts : List Nat} {i : Nat} (hi : i ∈ s.task.adders facts) : i < s.task.actions.size :=
  List.mem_range.1 (List.mem_filter.1 hi).1

namespace Survey

theorem needs?_eq_some {i : Nat} (hi : i < s.task.actions.size) : s.needs? i = some (s.needs i) := by
  rw [needs?, needs, Array.getElem?_eq_getElem hi]
  rfl

section InBounds

variable (hs : s.InBounds)
include hs

theorem earliest?_eq_some {facts : List Nat} (hfacts : ∀ f ∈ facts, f < s.task.facts.size) :
    s.earliest? facts = some (s.firstLayer? facts) := by
  rw [earliest?, mapM_eq_some (f := fun f => s.layers.getD f none)]
  · rw [firstLayer?]
    simp [List.reduceOption, List.filterMap_map]
  · exact fun f hf => getElem?_eq_some_getD (hs.size_layers ▸ hfacts f hf) none

theorem order?_eq_some (hd : d.InBounds s) {first second : Nat} (hfirst : first < d.candidates.size)
    (hsecond : second < d.candidates.size) (kind : OrderKind) :
    s.order? d first second kind = some (s.order d first second kind) := by
  have hx : d.candidates[first]? = some d.candidates[first] := Array.getElem?_eq_getElem hfirst
  have hy : d.candidates[second]? = some d.candidates[second] := Array.getElem?_eq_getElem hsecond
  rw [order?, order, Draft.facts_of_getElem? hx, Draft.facts_of_getElem? hy, hx, hy]
  by_cases hne : first = second
  · simp [hne]
  have hearlier : s.isEarlier d.candidates[first].facts d.candidates[second].facts =
      layerBefore (s.firstLayer? d.candidates[first].facts) (s.firstLayer? d.candidates[second].facts) := rfl
  simp only [hne, if_false, Option.bind_eq_bind, Option.bind_some, hearlier,
    earliest?_eq_some hs (hd _ (Array.getElem_mem hfirst)), earliest?_eq_some hs (hd _ (Array.getElem_mem hsecond))]
  simp only [ne_eq, hne, not_false_eq_true, decide_true, Bool.true_and]
  split
  · split
    · rfl
    · rfl
  · rfl

theorem goalReached?_eq_some {layers : Layers} (hsize : layers.size = s.task.facts.size) :
    s.goalReached? layers = some (s.goalReached layers) :=
  Layers.allM_reached?_eq_some fun _ hf => hsize ▸ hs.task.goalNeeds hf

theorem keeps?_eq_some {f : Nat} (hf : f < s.task.facts.size) : s.keeps? f = some (s.keeps f) := by
  rw [keeps?, Layers.reached?_eq_some (hs.size_layers ▸ hf)]
  rfl

theorem size_layersAvoiding (facts : List Nat) : (s.layersAvoiding facts).size = s.task.facts.size :=
  (Task.isLayering_relaxedLayers hs.task.inRange _).size

theorem layersAvoiding?_eq_some (facts : List Nat) : s.layersAvoiding? facts = some (s.layersAvoiding facts) := by
  have hmask : (s.task.adders facts).foldlM (fun mask i => setAt? mask i true)
      (Array.replicate s.task.actions.size false) = some (s.adderMask facts) := by
    refine (foldlM_eq_some (fun mask : Array Bool => mask.size = s.task.actions.size) Array.size_replicate
      fun i hi mask hmask => ⟨?_, Array.size_setIfInBounds.trans hmask⟩).1
    exact setAt?_eq_some (hmask ▸ adders_lt hi) true
  rw [layersAvoiding?, hmask]
  exact Task.relaxedLayers?_eq_some hs.task _

theorem firstAchievers?_eq_some (facts : List Nat) : s.firstAchievers? facts = some (s.firstAchievers facts) := by
  rw [firstAchievers?, layersAvoiding?_eq_some hs]
  refine filterM_eq_some fun i hi => ?_
  rw [needs?_eq_some (adders_lt hi)]
  refine Layers.allM_reached?_eq_some fun f hf => ?_
  rw [size_layersAvoiding hs]
  exact lt_size_of_mem_needs hs.task.needsInRange hf

/-! ### Exclusion -/

theorem necessaryFacts?_eq_some : s.necessaryFacts? = some s.necessaryFacts := by
  rw [necessaryFacts?, filterM_eq_some (p := fun f => s.keeps f && !s.isGoal f && s.isNecessary f)]
  · rfl
  intro f hf
  rw [keeps?_eq_some hs (List.mem_range.1 hf)]
  simp only [Option.bind_eq_bind, Option.bind_some]
  cases s.keeps f && !s.isGoal f with
  | false => rfl
  | true =>
    rw [layersAvoiding?_eq_some hs, if_pos rfl, Option.bind_some, goalReached?_eq_some hs (size_layersAvoiding hs _)]
    rfl

theorem orderByExclusion?_eq_some (hd : d.InBounds s) {first : Nat} (hfirst : first < d.candidates.size) :
    s.orderByExclusion? d first = some (s.orderByExclusion d first) := by
  have hx : d.candidates[first]? = some d.candidates[first] := Array.getElem?_eq_getElem hfirst
  rw [orderByExclusion?, orderByExclusion, hx, Draft.facts_of_getElem? hx]
  simp only [Option.bind_eq_bind, Option.bind_some, layersAvoiding?_eq_some hs]
  split
  · rfl
  -- Orderings leave the landmarks as they are.
  refine (foldlM_eq_some (fun d' : Draft => d'.candidates = d.candidates) rfl fun second hsecond d' hd' => ?_).1
  have hlt : second < d'.candidates.size := hd' ▸ List.mem_range.1 hsecond
  have hbounds : d'.InBounds s := hd.of_eq hd'
  have hy : d'.candidates[second]? = some d'.candidates[second] := Array.getElem?_eq_getElem hlt
  have hunreached : d'.candidates[second].facts.allM (s.layersAvoiding d.candidates[first].facts).lacks? =
      some (d'.candidates[second].facts.all fun f => !(s.layersAvoiding d.candidates[first].facts).reached f) :=
    allM_eq_some fun f hf => Layers.lacks?_eq_some
      (size_layersAvoiding hs d.candidates[first].facts ▸ hbounds _ (Array.getElem_mem hlt) f hf)
  rw [Draft.facts_of_getElem? hy]
  constructor
  · by_cases hne : second = first
    · simp [hne]
    · rw [if_neg hne, hy, Option.bind_some, hunreached, Option.bind_some]
      simp only [ne_eq, hne, not_false_eq_true, decide_true, Bool.true_and]
      split
      · exact order?_eq_some hs hbounds (hd' ▸ hfirst) hlt .natural
      · rfl
  · split
    · exact (s.candidates_order ..).trans hd'
    · exact hd'

/-- **Exclusion stays inside its arrays.** -/
theorem exhaustive?_eq_some : s.exhaustive? = some s.exhaustive := by
  let start : Draft := s.necessaryFacts.foldl (fun (d : Draft) f => d.including [f] .fact) {}
  have hstart : start.InBounds s := by
    refine .including_all fun f hf => ?_
    rcases List.mem_append.1 hf with hf | hf
    · exact hs.task.goalNeeds hf
    · exact List.mem_range.1 (List.mem_filter.1 hf).1
  rw [exhaustive?, necessaryFacts?_eq_some hs]
  refine (foldlM_eq_some (fun d : Draft => d.candidates = start.candidates) rfl fun first hfirst d hd => ⟨?_, ?_⟩).1
  · refine orderByExclusion?_eq_some hs (hstart.of_eq hd) ?_
    rw [hd]
    exact List.mem_range.1 hfirst
  · rw [candidates_orderByExclusion, hd]

end InBounds

end Survey

end Waymark.Landmark
