import Waymark.Failure

/-!
# Landmark graphs

A landmark is a fact, or a choice of facts, that every plan makes true. A graph holds landmarks under
numbers of their own, and orderings between them.

* `Graph.topologicalOrder`: the numbers in an order that agrees with the orderings, or what is wrong with
  the graph;
* `visit`: the depth-first search that produces the order;
* `firstMisplaced?`: the test of the order that finds cycles.
-/

namespace Waymark

/-- The forms of landmarks. -/
inductive Landmark.Kind where
  /-- One fact. -/
  | fact
  /-- One of several facts. -/
  | disjunctive
  deriving DecidableEq, Repr, Inhabited

/-- The forms of orderings. -/
inductive Landmark.OrderKind where
  /-- The first landmark holds at some point before the second does. -/
  | natural
  /-- The first landmark holds immediately before the second does for the first time. -/
  | greedyNecessary
  deriving DecidableEq, Repr, Inhabited

/-- A landmark. -/
structure Landmark where
  id : Nat
  kind : Landmark.Kind := .fact
  facts : List String
  /-- The actions that can make it true for the first time. -/
  firstAchievers : List String := []
  /-- The actions that can make it true. -/
  possibleAchievers : List String := []
  isInitial : Bool := false
  isGoal : Bool := false
  deriving DecidableEq, Repr, Inhabited

namespace Landmark

/-- An ordering between two landmarks. -/
structure Order where
  first : Nat
  second : Nat
  kind : OrderKind := .natural
  deriving DecidableEq, Repr, Inhabited

/-- Landmarks with their orderings. -/
structure Graph where
  landmarks : List Landmark := []
  orders : List Order := []
  deriving DecidableEq, Repr, Inhabited

/-- The first element that stands twice in a list, at its second place. -/
def firstRepeated? (seen : List Nat) : List Nat → Option Nat
  | [] => none
  | x :: rest => if seen.contains x then some x else firstRepeated? (x :: seen) rest

/-- The landmarks that an order puts directly after a landmark. -/
def following (orders : List Order) (id : Nat) : List Nat :=
  (orders.filter (·.first = id)).map (·.second)

/-- The progress of a depth-first search: the landmarks it has met, and those it is done with, the last
one first. -/
structure Walk where
  met : List Nat := []
  done : List Nat := []

/-- Visits a landmark and all that follow it, and is done with it after them. A landmark that follows
itself is the fault. The depth of the search is at most `depth`. -/
def visit (orders : List Order) : Nat → Walk → Nat → Except Nat Walk
  | 0, walk, _ => .ok walk
  | depth + 1, walk, id =>
    if walk.met.contains id then .ok walk
    else
      let next := following orders id
      if next.contains id then .error id
      else do
        let walk ← next.foldlM (visit orders depth) { walk with met := id :: walk.met }
        return { walk with done := id :: walk.done }

/-- The first landmark in a sequence before which a landmark is missing that an order puts there, as
that missing one. `before` holds what stands before the sequence. -/
def firstMisplaced? (orders : List Order) (before : List Nat) : List Nat → Option Nat
  | [] => none
  | id :: rest =>
    let before := id :: before
    match orders.find? fun o => o.second = id && !before.contains o.first with
    | some o => some o.first
    | none => firstMisplaced? orders before rest

namespace Graph

/-- The numbers of the landmarks. -/
def ids (g : Graph) : List Nat := g.landmarks.map (·.id)

/-- The landmark of a number. -/
def find? (g : Graph) (id : Nat) : Option Landmark := g.landmarks.find? (·.id = id)

/-- The landmarks in the reverse of the order in which a depth-first search is done with them. -/
def finishOrder (g : Graph) : Except Nat (List Nat) :=
  (·.done) <$> g.ids.foldlM (visit g.orders (g.ids.length + 1)) {}

/-- The numbers of the landmarks in an order that agrees with the orderings. It is an error that a
number stands twice, that an ordering names an unknown number, or that the orderings contain a cycle. -/
def topologicalOrder (g : Graph) : Except Failure (List Nat) :=
  match firstRepeated? [] g.ids with
  | some id => .error (.data (.duplicateLandmark id))
  | none =>
    match g.orders.find? fun o => !(g.ids.contains o.first && g.ids.contains o.second) with
    | some o => .error (.data (.unknownLandmark o.first o.second))
    | none => match g.finishOrder with
      | .error id => .error (.cycle id)
      | .ok order => match firstMisplaced? g.orders [] order with
        | some id => .error (.cycle id)
        | none => .ok order

/-- Refuses a graph without a topological order. -/
def validate (g : Graph) : Except Failure Unit := (fun _ => ()) <$> g.topologicalOrder

end Graph

end Landmark

end Waymark
