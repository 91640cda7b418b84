import Waymark.Number.Scale

/-!
# The frontier of a search

The frontier holds what is still to be looked at, cheapest first, and first come first served among
equals. It is a leftist heap: along every path from the root the entries come later and later, and the
left branch of a node is at least as deep as the right one.

* `Frontier.push`: adds an entry;
* `Frontier.pop?`: takes the first entry.
-/

namespace Waymark.Plan

open Number

/-- Something with a cost and a place in the order of arrival. -/
structure Entry (κ α : Type) where
  cost : κ
  arrival : Nat
  item : α

/-- The first entry comes before the second, or stands in the same place. -/
def Entry.precedes {κ α : Type} [Scale κ] (x y : Entry κ α) : Bool :=
  match Scale.order x.cost y.cost with
  | .lt => true
  | .eq => x.arrival ≤ y.arrival
  | .gt => false

/-- A heap of entries. `rank` is the length of the path that always turns right. -/
inductive Frontier (κ α : Type) where
  | empty
  | node (rank : Nat) (entry : Entry κ α) (left right : Frontier κ α)

namespace Frontier

variable {κ α : Type}

/-- The length of the path that always turns right. -/
def rank : Frontier κ α → Nat
  | .empty => 0
  | .node rank .. => rank

/-- The number of entries. -/
def size : Frontier κ α → Nat
  | .empty => 0
  | .node _ _ left right => left.size + right.size + 1

/-- A node over two heaps, the deeper one to the left. -/
def join (entry : Entry κ α) (x y : Frontier κ α) : Frontier κ α :=
  if x.rank < y.rank then .node (x.rank + 1) entry y x else .node (y.rank + 1) entry x y

variable [Scale κ]

/-- The entries of two heaps. -/
def merge : (x y : Frontier κ α) → Frontier κ α
  | .empty, y => y
  | x, .empty => x
  | .node r e left right, .node r' e' left' right' =>
    if e.precedes e' then join e left (merge right (.node r' e' left' right'))
    else join e' left' (merge (.node r e left right) right')
termination_by x y => x.size + y.size
decreasing_by all_goals (simp only [size]; omega)

/-- Adds an entry. -/
def push (x : Frontier κ α) (entry : Entry κ α) : Frontier κ α :=
  x.merge (.node 1 entry .empty .empty)

/-- Takes the first entry. -/
def pop? : Frontier κ α → Option (Entry κ α × Frontier κ α)
  | .empty => none
  | .node _ entry left right => some (entry, left.merge right)

end Frontier

end Waymark.Plan
