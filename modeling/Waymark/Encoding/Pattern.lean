import Waymark.Encoding.Monitor

/-!
# Monitoring patterns

The second way to watch a formula: fluents that remember what the template asks about. They say that an
activity has been seen, that a response is pending, or that the formula is violated. The chain templates
would have to observe the very next action, and have no pattern.
-/

namespace Waymark.Encoding

open Constraint

/-- What a fluent of a pattern remembers. -/
inductive Memory where
  | seenA
  | seenB
  | once
  | twice
  | violated
  | started
  | last
  | pending
  | chosen
  deriving DecidableEq, Repr

/-- The part of a fluent name that says what it remembers. -/
def Memory.word : Memory → String
  | .seenA => "seen-a"
  | .seenB => "seen-b"
  | .once => "once"
  | .twice => "twice"
  | .violated => "violated"
  | .started => "started"
  | .last => "last"
  | .pending => "pending"
  | .chosen => "chosen"

/-- The name of a fluent of formula `i`. -/
def memoryFluent (stem : String) (i : Nat) (m : Memory) : String :=
  stem ++ "-" ++ m.word ++ toString i

/-- The condition and the effect of two activities that exclude each other: each needs that the other
has not been seen, and both at once violate the formula. -/
def excluding (fluent : Memory → Expr) (goal : List Expr) (fluents : List String)
    (also : List Expr) : Monitor where
  fluents
  goal
  condition label := match label.a, label.b with
    | true, false => [(fluent .seenB).negation]
    | false, true => [(fluent .seenA).negation]
    | _, _ => []
  effect label := match label.a, label.b with
    | true, true => fluent .violated :: also
    | true, false => fluent .seenA :: also
    | false, true => fluent .seenB :: also
    | false, false => []

/-- The monitor with the pattern of formula `i`, none for the chain templates. -/
def pattern? (stem : String) (i : Nat) (t : Template) : Option Monitor :=
  let name := memoryFluent stem i
  let fluent (m : Memory) : Expr := fluentAtom (name m)
  match t with
  | .existence => some
    { fluents := [name .seenA]
      goal := [fluent .seenA]
      effect := fun label => if label.a then [fluent .seenA] else [] }
  | .existenceTwo => some
    { fluents := [name .once, name .twice]
      goal := [fluent .twice]
      effect := fun label =>
        if label.a then [fluent .once, whenever [fluent .once] [fluent .twice]] else [] }
  | .absence => some
    { fluents := [name .violated]
      goal := [(fluent .violated).negation]
      effect := fun label => if label.a then [fluent .violated] else [] }
  | .init => some
    { fluents := [name .started]
      goal := [fluent .started]
      condition := fun label => if label.a then [] else [fluent .started]
      effect := fun label => if label.a then [fluent .started] else [] }
  | .final => some
    { fluents := [name .last]
      goal := [fluent .last]
      effect := fun label => [if label.a then fluent .last else (fluent .last).negation] }
  | .respondedExistence => some
    { fluents := [name .seenB, name .pending]
      goal := [(fluent .pending).negation]
      effect := fun label =>
        if label.b then [fluent .seenB, (fluent .pending).negation]
        else if label.a then [whenever [(fluent .seenB).negation] [fluent .pending]]
        else [] }
  | .response => some
    { fluents := [name .pending]
      goal := [(fluent .pending).negation]
      effect := fun label =>
        if label.b then [(fluent .pending).negation]
        else if label.a then [fluent .pending]
        else [] }
  | .precedence => some
    { fluents := [name .seenA]
      condition := fun label => if !label.a && label.b then [fluent .seenA] else []
      effect := fun label => if label.a then [fluent .seenA] else [] }
  | .succession => some
    { fluents := [name .seenA, name .pending]
      goal := [(fluent .pending).negation]
      condition := fun label => if !label.a && label.b then [fluent .seenA] else []
      effect := fun label =>
        (if label.a then [fluent .seenA] else []) ++
          (if label.b then [(fluent .pending).negation]
            else if label.a then [fluent .pending]
            else []) }
  | .notCoExistence => some <|
    excluding fluent [(fluent .violated).negation]
      [name .seenA, name .seenB, name .violated] []
  | .exclusiveChoice => some <|
    excluding fluent [(fluent .violated).negation, fluent .chosen]
      [name .seenA, name .seenB, name .violated, name .chosen] [fluent .chosen]
  | .chainResponse | .chainPrecedence => none

end Waymark.Encoding
