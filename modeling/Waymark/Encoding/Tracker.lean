import Waymark.Encoding.Monitor

/-!
# Tracking automata

The first of two ways to watch a formula: its automaton runs along with the plan. One fluent per state
says where the automaton is, another whether that state is accepting. Since the label of a schema is
fixed, its effect on the automaton is a conditional effect for each state that it leaves, and a state
without a successor becomes a negated condition.
-/

namespace Waymark.Encoding

open Constraint

/-- The fluent that holds while the automaton of formula `i` is in a state. -/
def stateFluent (stem : String) (i state : Nat) : String :=
  stem ++ "-q" ++ toString i ++ "-" ++ toString state

/-- The fluent that holds while the automaton of formula `i` is in an accepting state. -/
def acceptFluent (stem : String) (i : Nat) : String := stem ++ "-acc" ++ toString i

/-- The numbers of the states of an automaton. -/
def states (t : Template) : List Nat := List.range t.stateCount

/-- What a step from one state to another changes. -/
def stepEffects (stem : String) (i : Nat) (t : Template) (source target : Nat) : List Expr :=
  let accept := fluentAtom (acceptFluent stem i)
  [(fluentAtom (stateFluent stem i source)).negation, fluentAtom (stateFluent stem i target)] ++
    match t.accepting source, t.accepting target with
    | false, true => [accept]
    | true, false => [accept.negation]
    | _, _ => []

/-- The monitor that tracks the automaton of formula `i`. -/
def tracker (stem : String) (i : Nat) (t : Template) : Monitor where
  fluents := (states t).map (stateFluent stem i) ++ [acceptFluent stem i]
  init :=
    fluentAtom (stateFluent stem i 0) ::
      if t.accepting 0 then [fluentAtom (acceptFluent stem i)] else []
  goal := [fluentAtom (acceptFluent stem i)]
  condition label :=
    ((states t).filter fun s => (t.step s label).isNone).map fun s =>
      (fluentAtom (stateFluent stem i s)).negation
  effect label :=
    (states t).flatMap fun source => match t.step source label with
      | none => []
      | some target =>
        if target = source then []
        else [whenever [fluentAtom (stateFluent stem i source)] (stepEffects stem i t source target)]

end Waymark.Encoding
