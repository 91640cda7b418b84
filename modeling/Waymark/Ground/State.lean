/-!
# States

A state is the set of the facts that hold, as a bit set: fact `f` is bit `f % 64` of word `f / 64`.
A state for `n` facts has as many words as `n` bits need; facts beyond the last word never hold.

* `State.empty`, `State.insert`, `State.erase`: the operations;
* `State.contains`: the view of a state as a set.
-/

namespace Waymark.Ground

/-- A set of facts. -/
structure State where
  words : Array UInt64
  deriving DecidableEq, Repr, Inhabited

namespace State

/-- The state for `factCount` facts in which nothing holds. -/
def empty (factCount : Nat) : State := ⟨Array.replicate ((factCount + 63) / 64) 0⟩

/-- The word in which only the bit of a fact is set. -/
def bit (fact : Nat) : UInt64 := 1 <<< (fact % 64).toUInt64

/-- The fact holds. -/
def contains (s : State) (fact : Nat) : Bool :=
  match s.words[fact / 64]? with
  | some word => word &&& bit fact != 0
  | none => false

/-- The state in which the fact holds too. -/
def insert (s : State) (fact : Nat) : State := ⟨s.words.modify (fact / 64) (· ||| bit fact)⟩

/-- The state in which the fact does not hold. -/
def erase (s : State) (fact : Nat) : State := ⟨s.words.modify (fact / 64) (· &&& ~~~ bit fact)⟩

/-- All the facts hold. -/
def containsAll (s : State) (facts : List Nat) : Bool := facts.all s.contains

/-- None of the facts holds. -/
def containsNone (s : State) (facts : List Nat) : Bool := facts.all fun f => !s.contains f

/-- The state in which exactly the given facts hold. -/
def ofFacts (factCount : Nat) (facts : List Nat) : State := facts.foldl insert (empty factCount)

end State

end Waymark.Ground
