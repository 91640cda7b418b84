import Waymark.Landmark.Draft

/-!
# Landmarks by exclusion

A fact is a landmark of the relaxation if the goal is out of reach without the actions that may add it.
Every fact is put to this test. One landmark is ordered before another if the second is out of reach
without the actions that may add the first.
-/

namespace Waymark.Landmark.Survey

open Ground

variable {κ : Type}

/-- The goal is out of reach without the actions that may add the fact. -/
def isNecessary (s : Survey κ) (fact : Nat) : Bool := !s.goalReached (s.layersAvoiding [fact])

/-- The goals and all other facts that are necessary. -/
def necessaryFacts (s : Survey κ) : List Nat :=
  s.task.goalNeeds ++ (List.range s.task.facts.size).filter fun f =>
    s.keeps f && !s.isGoal f && s.isNecessary f

/-- Orders a landmark before those that are out of reach without it. -/
def orderByExclusion (s : Survey κ) (d : Draft) (first : Nat) : Draft :=
  let facts := d.facts first
  if facts.all s.task.isInitial then d
  else
    let layers := s.layersAvoiding facts
    (List.range d.candidates.size).foldl (fun d second =>
      if second ≠ first && (d.facts second).all fun f => !layers.reached f then
        s.order d first second .natural
      else d) d

/-- The draft of all necessary facts. -/
def exhaustive (s : Survey κ) : Draft :=
  let d := s.necessaryFacts.foldl (fun (d : Draft) f => d.including [f] .fact) {}
  (List.range d.candidates.size).foldl s.orderByExclusion d

end Waymark.Landmark.Survey
