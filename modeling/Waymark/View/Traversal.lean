import Waymark.View.Context

/-!
# The order in which landmarks are decided

Landmarks are taken up so that the orderings are respected, forward or backward. Among those that may
come next the one is taken whose achievers stand earliest in the plans on average, or latest when going
backward. A landmark that no plan achieves waits as long as it can, and the smaller number decides
between equals.

* `Mean`: the average position of a landmark's achievers, as an exact quotient;
* `Sweep`: the landmarks that may come next, and how many predecessors the others wait for;
* `Context.traversal`: the order.
-/

namespace Waymark.View

variable {κ : Type}

/-- A sum of positions and their number. -/
structure Mean where
  sum : Nat
  count : Nat
  deriving DecidableEq, Repr

/-- The first quotient is smaller. Neither has the count zero. -/
def Mean.lt (x y : Mean) : Bool := x.sum * y.count < y.sum * x.count

/-- The average position of the achievers of a landmark, none if no plan achieves it. -/
def Context.mean? (c : Context κ) (live : List Nat) (landmark : Nat) : Option Mean :=
  match live.filterMap fun p => (c.choice landmark p).map (·.2) with
  | [] => none
  | positions => some ⟨positions.foldl (· + ·) 0, positions.length⟩

/-- The first average is to be taken up before the second. -/
def isSooner (d : Direction) : Option Mean → Option Mean → Bool
  | some x, some y => match d with
    | .forward => x.lt y
    | .backward => y.lt x
  | some _, none => true
  | none, _ => false

/-- A landmark with its average position. -/
structure Stop where
  id : Nat
  mean : Option Mean
  deriving DecidableEq, Repr

/-- The first landmark is to be taken up before the second. -/
def Stop.precedes (d : Direction) (x y : Stop) : Bool :=
  isSooner d x.mean y.mean || (!isSooner d y.mean x.mean && x.id < y.id)

/-- The landmark to take up first. -/
def Stop.first? (d : Direction) : List Stop → Option Stop
  | [] => none
  | x :: rest => match Stop.first? d rest with
    | none => some x
    | some y => some (if y.precedes d x then y else x)

/-- The orderings in a direction, each pair once. -/
def arrows (d : Direction) (g : Landmark.Graph) : List (Nat × Nat) :=
  (g.orders.map fun o => match d with
    | .forward => (o.first, o.second)
    | .backward => (o.second, o.first)).eraseDups

/-- The progress through the landmarks: those that may come next, and for the others the number of
predecessors that have not been taken up. -/
structure Sweep where
  ready : List Stop
  waiting : List (Stop × Nat)

/-- The landmarks before any is taken up. -/
def Sweep.start (arrows : List (Nat × Nat)) (stops : List Stop) : Sweep :=
  let counted := stops.map fun s => (s, arrows.countP (·.2 = s.id))
  { ready := (counted.filter (·.2 = 0)).map (·.1), waiting := counted.filter (·.2 ≠ 0) }

/-- Counts one predecessor of a landmark as taken up. -/
def Sweep.release (s : Sweep) (id : Nat) : Sweep :=
  let waiting := s.waiting.map fun (stop, n) => if stop.id = id then (stop, n - 1) else (stop, n)
  { ready := s.ready ++ (waiting.filter (·.2 = 0)).map (·.1), waiting := waiting.filter (·.2 ≠ 0) }

/-- Takes up a landmark. -/
def Sweep.take (arrows : List (Nat × Nat)) (s : Sweep) (stop : Stop) : Sweep :=
  let next := (arrows.filter (·.1 = stop.id)).map (·.2)
  next.foldl Sweep.release { s with ready := s.ready.erase stop }

/-- Takes up landmarks until none may come next. -/
def Sweep.run (d : Direction) (arrows : List (Nat × Nat)) : Nat → Sweep → List Nat
  | 0, _ => []
  | steps + 1, s => match Stop.first? d s.ready with
    | none => []
    | some stop => stop.id :: Sweep.run d arrows steps (s.take arrows stop)

/-- The landmarks in the order in which they are decided for the plans at some places. -/
def Context.traversal (c : Context κ) (live : List Nat) (d : Direction) : List Nat :=
  let stops := c.graph.ids.map fun id => ⟨id, c.mean? live id⟩
  let arrows := arrows d c.graph
  Sweep.run d arrows stops.length (.start arrows stops)

end Waymark.View
