import Mathlib.Tactic
import Waymark.Proofs.Landmark.BackchainAccess
import Waymark.Proofs.Landmark.LabelAccess

/-!
# Graphs of drafts stay inside their arrays

The graph of a draft with checked accesses. The places of a draft are sorted, an array that has as many places
keeps the number of each, and orderings are renumbered by it: both of their landmarks must have places in it.

* `numbered?`, `numbered?_eq_some`: the array of numbers;
* `Survey.finish?_eq_some`: the graph of a draft;
* `extract?`, `extract?_eq_some`: the landmarks of a task, by every method.
-/

namespace Waymark.Landmark

open Ground

variable {κ : Type}

/-! ## Checked graphs -/

/-- For each of so many places its number in a list of places. -/
def numbered? (size : Nat) (places : List Nat) : Option (Array Nat) :=
  places.zipIdx.foldlM (fun ids (place, id) => setAt? ids place id) (Array.replicate size 0)

/-- The order of landmarks by their layers, then by the names of their facts. -/
def keyBefore (x y : Option Nat × List String) : Bool :=
  match x.1, y.1 with
  | some a, some b => if a = b then Survey.namesBefore x.2 y.2 else a < b
  | some _, none => true
  | none, some _ => false
  | none, none => Survey.namesBefore x.2 y.2

namespace Survey

variable (s : Survey κ)

/-- The names of facts. -/
def names? (facts : List Nat) : Option (List String) := facts.mapM fun f => s.task.facts.names[f]?

/-- The names of actions. -/
def actionNames? (actions : List Nat) : Option (List String) :=
  actions.mapM fun i => s.task.actions[i]?.map Action.name

/-- The places of a draft in the order of the landmarks. -/
def sortedPlaces? (d : Draft) : Option (List Nat) := do
  let keys ← (List.range d.candidates.size).mapM fun place => do
    let c ← d.candidates[place]?
    return ((← s.earliest? c.facts, ← s.names? c.facts), place)
  return (keys.mergeSort fun x y => keyBefore x.1 y.1).map (·.2)

/-- The landmark of a candidate under a number. -/
def landmark? (id : Nat) (c : Candidate) : Option Landmark := do
  return {
    id
    kind := c.kind
    facts := ← s.names? c.facts
    firstAchievers := ← s.actionNames? (← s.firstAchievers? c.facts)
    possibleAchievers := ← s.actionNames? (s.task.adders c.facts)
    isInitial := c.facts.any s.task.isInitial
    isGoal := c.facts.any s.isGoal }

/-- The graph of a draft. -/
def finish? (d : Draft) : Option Graph := do
  let places ← s.sortedPlaces? d
  let ids ← numbered? d.candidates.size places
  let landmarks ← places.zipIdx.mapM fun (place, id) => do s.landmark? id (← d.candidates[place]?)
  let orders ← d.orders.mapM fun o => do return { o with first := ← ids[o.first]?, second := ← ids[o.second]? }
  return { landmarks, orders := orders.mergeSort fun x y =>
    x.first < y.first || (x.first = y.first && x.second ≤ y.second) }

/-- The draft that a method yields. -/
def found? : Category → Option Draft
  | .rhw => s.backchained?
  | .zg => s.labelled?
  | .exhaust => s.exhaustive?

end Survey

/-- The landmarks of a ground task. -/
def extract? (task : Ground.Task κ) (category : Category) : Option Graph := do
  let s ← Survey.of? task
  if ← s.goalReached? s.layers then s.finish? (← s.found? category) else return {}

/-! ## Numbers of places -/

section Numbered

variable {places : List Nat} {place : Nat}

theorem getElem?_foldl_set_of_notMem (hplace : place ∉ places) (k : Nat) (ids : Array Nat) :
    ((places.zipIdx k).foldl (fun ids (x : Nat × Nat) => ids.setIfInBounds x.1 x.2) ids)[place]? = ids[place]? := by
  induction places generalizing k ids with
  | nil => rfl
  | cons p places ih =>
    obtain ⟨hne, hplace⟩ := not_or.1 (List.mem_cons.not.1 hplace)
    rw [List.zipIdx_cons, List.foldl_cons, ih hplace, Array.getElem?_setIfInBounds_ne (Ne.symm hne)]

/-- Numbers are counted from the place that is written first. -/
theorem getElem?_foldl_set (hnodup : places.Nodup) (hplace : place ∈ places) (k : Nat) {ids : Array Nat}
    (hlt : place < ids.size) :
    ((places.zipIdx k).foldl (fun ids (x : Nat × Nat) => ids.setIfInBounds x.1 x.2) ids)[place]? =
      some (k + places.idxOf place) := by
  induction places generalizing k ids with
  | nil => cases hplace
  | cons p places ih =>
    obtain ⟨hp, hnodup⟩ := List.nodup_cons.1 hnodup
    rw [List.zipIdx_cons, List.foldl_cons]
    by_cases hne : p = place
    · subst hne
      rw [getElem?_foldl_set_of_notMem hp, Array.getElem?_setIfInBounds_self_of_lt hlt, List.idxOf_cons_self]
      rfl
    · have hrest := (List.mem_cons.1 hplace).resolve_left (Ne.symm hne)
      rw [ih hnodup hrest (k + 1) (by rwa [Array.size_setIfInBounds]), List.idxOf_cons_ne _ hne]
      exact congrArg some (Nat.succ_add_eq_add_succ _ _)

/-- Every place is written, and then read as its number. -/
theorem numbered?_eq_some {size : Nat} (hnodup : places.Nodup) (hlt : ∀ place ∈ places, place < size) :
    ∃ ids, numbered? size places = some ids ∧ ∀ place ∈ places, ids[place]? = some (places.idxOf place) := by
  have hwritten : numbered? size places = some (places.zipIdx.foldl
      (fun ids (x : Nat × Nat) => ids.setIfInBounds x.1 x.2) (Array.replicate size 0)) := by
    refine (foldlM_eq_some (fun ids : Array Nat => ids.size = size) Array.size_replicate ?_).1
    rintro ⟨place, id⟩ hplace ids hids
    have hmem : place ∈ places := List.mem_of_getElem? (List.mem_zipIdx_iff_getElem?.1 hplace)
    exact ⟨setAt?_eq_some (hids ▸ hlt place hmem) id, Array.size_setIfInBounds.trans hids⟩
  refine ⟨_, hwritten, fun place hplace => ?_⟩
  rw [getElem?_foldl_set hnodup hplace 0 (by simpa using hlt place hplace), Nat.zero_add]

end Numbered

/-! ## All places exist -/

variable {s : Survey κ} {d : Draft}

namespace Survey

theorem actionNames?_eq_some {actions : List Nat} (hactions : ∀ i ∈ actions, i < s.task.actions.size) :
    s.actionNames? actions = some (actions.map s.task.actionName) := by
  refine mapM_eq_some fun i hi => ?_
  rw [Task.actionName, Array.getElem?_eq_getElem (hactions i hi)]
  rfl

theorem names?_eq_some {facts : List Nat} (hfacts : ∀ f ∈ facts, f < s.task.facts.size) :
    s.names? facts = some (s.names facts) :=
  mapM_eq_some fun f hf => getElem?_eq_some_getD (hfacts f hf) ""

/-- The places of a draft stand once each in the order of the landmarks. -/
theorem nodup_sorted_places (s : Survey κ) (d : Draft) : ((s.sorted d).map (·.2)).Nodup := by
  have hplaces : (d.candidates.toList.zipIdx.map (·.2)).Nodup := by
    rw [List.zipIdx_map_snd]
    exact List.nodup_range'
  exact (((List.mergeSort_perm _ _).map _).nodup_iff).2 hplaces

section InBounds

variable (hs : s.InBounds)
include hs

theorem sortedPlaces?_eq_some (hd : d.InBounds s) : s.sortedPlaces? d = some ((s.sorted d).map (·.2)) := by
  let key (x : Candidate × Nat) : (Option Nat × List String) × Nat :=
    ((s.firstLayer? x.1.facts, s.names x.1.facts), x.2)
  have hkeys : (List.range d.candidates.size).mapM (fun place => do
      let c ← d.candidates[place]?
      return ((← s.earliest? c.facts, ← s.names? c.facts), place)) = some (d.candidates.toList.zipIdx.map key) := by
    have hrange : List.range d.candidates.size = d.candidates.toList.zipIdx.map (·.2) := by
      rw [List.zipIdx_map_snd, List.range_eq_range', Array.length_toList]
    rw [hrange, List.mapM_map]
    refine mapM_eq_some ?_
    rintro ⟨c, place⟩ hc
    have hget : d.candidates[place]? = some c := Array.getElem?_toList ▸ List.mem_zipIdx_iff_getElem?.1 hc
    have hfacts := hd c (Array.mem_of_getElem? hget)
    simp only [Function.comp_apply, hget, Option.bind_eq_bind, Option.bind_some, earliest?_eq_some hs hfacts,
      names?_eq_some hfacts]
    rfl
  have hsorted : (d.candidates.toList.zipIdx.map key).mergeSort (fun x y => keyBefore x.1 y.1) =
      (s.sorted d).map key :=
    (List.map_mergeSort (s := fun x y => keyBefore x.1 y.1) (f := key) fun _ _ _ _ => rfl).symm
  rw [sortedPlaces?, hkeys]
  simp only [Option.bind_eq_bind, Option.bind_some, hsorted, List.map_map]
  rfl

theorem landmark?_eq_some (id : Nat) {c : Candidate} (hc : ∀ f ∈ c.facts, f < s.task.facts.size) :
    s.landmark? id c = some (s.landmark id c) := by
  have hfirst : ∀ i ∈ s.firstAchievers c.facts, i < s.task.actions.size :=
    fun i hi => adders_lt (List.mem_filter.1 hi).1
  rw [landmark?, names?_eq_some hc, firstAchievers?_eq_some hs, actionNames?_eq_some fun _ => adders_lt]
  simp only [Option.bind_eq_bind, Option.bind_some, actionNames?_eq_some hfirst]
  rfl

theorem finish?_eq_some (hd : d.InBounds s) (hregular : d.Regular s) : s.finish? d = some (s.finish d) := by
  have hget {c : Candidate} {place : Nat} (h : (c, place) ∈ s.sorted d) : d.candidates[place]? = some c :=
    mem_sorted.1 h
  have hplace {c : Candidate} {place : Nat} (h : d.candidates[place]? = some c) :
      place ∈ (s.sorted d).map (·.2) := List.mem_map_of_mem (mem_sorted.2 h)
  have hlt : ∀ place ∈ (s.sorted d).map (·.2), place < d.candidates.size :=
    List.forall_mem_map.2 fun _ hx => (Array.getElem?_eq_some_iff.1 (hget hx)).1
  obtain ⟨ids, hids, hnewId⟩ := numbered?_eq_some (s.nodup_sorted_places d) hlt
  have hlandmarks : ((s.sorted d).map (·.2)).zipIdx.mapM (fun (place, id) => do
      s.landmark? id (← d.candidates[place]?)) = some (s.finish d).landmarks := by
    rw [List.zipIdx_map, List.mapM_map]
    refine mapM_eq_some ?_
    rintro ⟨⟨c, place⟩, id⟩ hc
    have hc := hget (List.mem_of_getElem? (List.mem_zipIdx_iff_getElem?.1 hc))
    simp only [Function.comp_apply, Prod.map_apply, hc, Option.bind_eq_bind, Option.bind_some]
    exact landmark?_eq_some hs id (hd c (Array.mem_of_getElem? hc))
  -- The landmarks of an ordering have their places, and these have numbers.
  have horders : d.orders.mapM (fun o => do
      return { o with first := ← ids[o.first]?, second := ← ids[o.second]? }) =
        some (d.orders.map fun o => { o with first := s.newId d o.first, second := s.newId d o.second }) := by
    refine mapM_eq_some fun o ho => ?_
    obtain ⟨c, c', hc, hc', -⟩ := hregular.layered o ho
    rw [hnewId _ (hplace hc), hnewId _ (hplace hc')]
    rfl
  rw [finish?, sortedPlaces?_eq_some hs hd]
  simp only [Option.bind_eq_bind, Option.bind_some, hids]
  simp only [← Option.bind_eq_bind, hlandmarks, horders]
  rfl

theorem found?_eq_some (category : Category) : s.found? category = some (s.found category) := by
  cases category with
  | rhw => exact backchained?_eq_some hs
  | zg => exact labelled?_eq_some hs
  | exhaust => exact exhaustive?_eq_some hs

end InBounds

end Survey

/-- **The extraction of landmarks stays inside its arrays**, whatever the method. -/
theorem extract?_eq_some {t : Ground.Task κ} (ht : t.InBounds) (category : Category) :
    extract? t category = some (extract t category) := by
  have hs := Survey.inBounds_of ht
  rw [extract?, Survey.of?_eq_some ht]
  simp only [Option.bind_eq_bind, Option.bind_some, Survey.goalReached?_eq_some hs hs.size_layers]
  by_cases hreached : (Survey.of t).goalReached (Survey.of t).layers = true
  · rw [if_pos hreached, extract_of_goalReached hreached, Survey.found?_eq_some hs, Option.bind_some]
    have hbounds : ((Survey.of t).found category).InBounds (Survey.of t) :=
      fun c hc => lt_size_of_mem_found ht.needsInRange hc
    exact Survey.finish?_eq_some hs hbounds (drafted_found _ category).regular
  · have hempty : extract t category = {} := by
      unfold extract
      exact if_neg hreached
    rw [if_neg hreached, hempty]
    rfl

end Waymark.Landmark
