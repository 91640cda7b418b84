import Waymark.Ground.Layers
import Waymark.Landmark.Graph

/-!
# Drafts of landmark graphs

Landmarks are found one after the other as sets of facts. A draft collects them with the orderings
between them, each set once. An ordering is kept only if its first landmark is reached in an earlier
layer of the relaxation than its second, so orderings never form a cycle. When a draft is finished its
landmarks are numbered by layer and then by name.

* `Draft.add`, `Draft.order`: what a draft collects;
* `Survey`: a task with the layers of its facts;
* `Survey.firstAchievers`: the actions that can make one of some facts true for the first time;
* `Survey.finish`: the graph of a draft.
-/

namespace Waymark.Landmark

open Ground

variable {κ : Type}

/-- A landmark that was found. -/
structure Candidate where
  /-- The facts, in ascending order. -/
  facts : List Nat
  kind : Kind
  deriving DecidableEq, Repr, Inhabited

/-- The landmarks and orderings found so far. Orderings name landmarks by their places. -/
structure Draft where
  candidates : Array Candidate := #[]
  orders : List Order := []
  deriving Inhabited

/-- A list in ascending order, each element once. -/
def ascending (xs : List Nat) : List Nat := (xs.mergeSort (· ≤ ·)).eraseReps

/-- A task with the layers of its facts. -/
structure Survey (κ : Type) where
  task : Ground.Task κ
  layers : Layers

/-- The survey of a task. -/
def Survey.of (task : Ground.Task κ) : Survey κ := ⟨task, task.relaxedLayers #[]⟩

/-! ## Collecting -/

/-- The place of a landmark in a draft, and whether it is a new one. -/
def Draft.add (d : Draft) (facts : List Nat) (kind : Kind) : Draft × Nat × Bool :=
  let facts := ascending facts
  match d.candidates.findIdx? (·.facts = facts) with
  | some i => (d, i, false)
  | none => ({ d with candidates := d.candidates.push ⟨facts, kind⟩ }, d.candidates.size, true)

/-- The draft with a landmark. -/
def Draft.including (d : Draft) (facts : List Nat) (kind : Kind) : Draft := (d.add facts kind).1

/-- The single fact is a landmark of the draft. -/
def Draft.hasFact (d : Draft) (fact : Nat) : Bool := d.candidates.any (·.facts = [fact])

/-- The facts of a landmark of the draft. -/
def Draft.facts (d : Draft) (place : Nat) : List Nat := (d.candidates.getD place default).facts

namespace Survey

/-- The first layer of the relaxation that holds one of the facts. -/
def firstLayer? (s : Survey κ) (facts : List Nat) : Option Nat :=
  (facts.filterMap fun f => s.layers.getD f none).min?

/-- One of the first facts is reached in an earlier layer than all of the second ones. -/
def isEarlier (s : Survey κ) (first second : List Nat) : Bool :=
  match s.firstLayer? first, s.firstLayer? second with
  | some a, some b => a < b
  | some _, none => true
  | none, _ => false

/-- The draft with an ordering, if the layers agree with it. -/
def order (s : Survey κ) (d : Draft) (first second : Nat) (kind : OrderKind) : Draft :=
  if first ≠ second && s.isEarlier (d.facts first) (d.facts second) then
    if d.orders.contains ⟨first, second, kind⟩ then d
    else { d with orders := d.orders ++ [⟨first, second, kind⟩] }
  else d

/-! ## Questions about the task -/

/-- The fact is a goal. -/
def isGoal (s : Survey κ) (fact : Nat) : Bool := s.task.goalNeeds.contains fact

/-- The goal is reached in given layers. -/
def goalReached (s : Survey κ) (layers : Layers) : Bool := s.task.goalNeeds.all layers.reached

/-- A fact that the relaxation reaches, and that is a goal if it holds initially. -/
def keeps (s : Survey κ) (fact : Nat) : Bool :=
  s.layers.reached fact && (!s.task.isInitial fact || s.isGoal fact)

/-- The layers of the relaxation without some actions. -/
def layersWithout (s : Survey κ) (actions : List Nat) : Layers :=
  s.task.relaxedLayers
    (actions.foldl (fun mask i => mask.setIfInBounds i true)
      (Array.replicate s.task.actions.size false))

/-- The layers of the relaxation without the actions that may add one of the facts. -/
def layersAvoiding (s : Survey κ) (facts : List Nat) : Layers :=
  s.layersWithout (s.task.adders facts)

/-- The facts that an action needs. -/
def needs (s : Survey κ) (action : Nat) : List Nat :=
  (s.task.actions[action]?.map Action.needs).getD []

/-- The actions that may add one of the facts and need nothing that only such actions reach. -/
def firstAchievers (s : Survey κ) (facts : List Nat) : List Nat :=
  let layers := s.layersAvoiding facts
  (s.task.adders facts).filter fun a => (s.needs a).all layers.reached

/-! ## Finishing -/

/-- The order of lists of names. -/
def namesBefore : List String → List String → Bool
  | [], _ => true
  | _ :: _, [] => false
  | x :: xs, y :: ys => if x = y then namesBefore xs ys else x < y

/-- The names of facts. -/
def names (s : Survey κ) (facts : List Nat) : List String := facts.map s.task.facts.name

/-- A landmark stands before another: it is reached in an earlier layer, or its facts have smaller
names. -/
def comesBefore (s : Survey κ) (x y : Candidate) : Bool :=
  match s.firstLayer? x.facts, s.firstLayer? y.facts with
  | some a, some b => if a = b then namesBefore (s.names x.facts) (s.names y.facts) else a < b
  | some _, none => true
  | none, some _ => false
  | none, none => namesBefore (s.names x.facts) (s.names y.facts)

/-- The landmark of a candidate under a number. -/
def landmark (s : Survey κ) (id : Nat) (c : Candidate) : Landmark where
  id
  kind := c.kind
  facts := s.names c.facts
  firstAchievers := (s.firstAchievers c.facts).map s.task.actionName
  possibleAchievers := (s.task.adders c.facts).map s.task.actionName
  isInitial := c.facts.any s.task.isInitial
  isGoal := c.facts.any s.isGoal

/-- The graph of a draft. -/
def finish (s : Survey κ) (d : Draft) : Graph :=
  let sorted := d.candidates.toList.zipIdx.mergeSort fun x y => s.comesBefore x.1 y.1
  let places := sorted.map (·.2)
  let newId (place : Nat) : Nat := places.idxOf place
  let orders := d.orders.map fun o => { o with first := newId o.first, second := newId o.second }
  { landmarks := sorted.zipIdx.map fun ((c, _), id) => s.landmark id c
    orders := orders.mergeSort fun x y =>
      x.first < y.first || (x.first = y.first && x.second ≤ y.second) }

end Survey

end Waymark.Landmark
