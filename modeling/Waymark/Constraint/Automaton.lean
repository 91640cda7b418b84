import Waymark.Constraint.Template

/-!
# Automata of templates

Each template has a deterministic automaton that reads, event by event, whether an event is an
occurrence of the first and of the second activity. Its states are numbered from 0, where it starts.
A missing successor is a rejection that nothing after it mends.

* `step`: the successor of a state;
* `run`: the state after a sequence of events;
* `accepting`: the states in which a sequence may end.
-/

namespace Waymark.Constraint

/-- Which activities of a formula an event is an occurrence of. -/
structure Label where
  a : Bool
  b : Bool
  deriving DecidableEq, Repr, Inhabited

namespace Template

/-- The number of states. -/
def stateCount : Template → Nat
  | .absence => 1
  | .existence | .init | .final | .response | .precedence | .chainResponse | .chainPrecedence => 2
  | .existenceTwo | .respondedExistence | .succession | .notCoExistence | .exclusiveChoice => 3

/-- A sequence may end in this state. -/
def accepting (t : Template) (state : Nat) : Bool :=
  match t with
  | .existence | .init | .final => state = 1
  | .existenceTwo => state = 2
  | .absence | .response | .chainResponse => state = 0
  | .respondedExistence => state ≠ 1
  | .precedence | .chainPrecedence => true
  | .succession => state ≠ 2
  | .notCoExistence => true
  | .exclusiveChoice => state ≠ 0

/-- The successor of a state, none if the event is never allowed there. -/
def step (t : Template) (state : Nat) (label : Label) : Option Nat :=
  match t with
  | .existence => some (if label.a then 1 else state)
  | .existenceTwo => some (if label.a then min (state + 1) 2 else state)
  | .absence => if label.a then none else some 0
  | .init => if state = 0 then (if label.a then some 1 else none) else some 1
  | .final => some (if label.a then 1 else 0)
  | .respondedExistence =>
    some (if label.b || state = 2 then 2 else if label.a then 1 else state)
  | .response => some (if label.b then 0 else if label.a then 1 else state)
  | .precedence =>
    if state = 0 then (if label.a then some 1 else if label.b then none else some 0)
    else some state
  | .succession =>
    if state = 0 then
      if label.a then some (if label.b then 1 else 2) else if label.b then none else some 0
    else some (if label.b then 1 else if label.a then 2 else state)
  | .chainResponse =>
    if state = 1 && !label.b then none else some (if label.a then 1 else 0)
  | .chainPrecedence =>
    if state = 0 && label.b then none else some (if label.a then 1 else 0)
  | .notCoExistence | .exclusiveChoice =>
    match label.a, label.b with
    | true, true => none
    | true, false => if state = 2 then none else if state = 0 then some 1 else some state
    | false, true => if state = 1 then none else if state = 0 then some 2 else some state
    | false, false => some state

/-- The state after a sequence of events that starts in `state`. -/
def runFrom (t : Template) (state : Nat) (labels : List Label) : Option Nat :=
  labels.foldlM t.step state

/-- The state after a sequence of events. -/
def run (t : Template) (labels : List Label) : Option Nat := t.runFrom 0 labels

end Template

end Waymark.Constraint
