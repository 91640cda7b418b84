import Waymark.Landmark.Draft
import Waymark.Text.Blank

/-!
# Landmarks by backchaining

From the goals backwards: what all first achievers of a landmark need is a landmark too. What each of them
needs of one predicate is a landmark as a choice, if there are between two and four such facts. Either is
ordered before the landmark it was found from.

* `Survey.sharedNeeds`: what all of some actions need;
* `Survey.choices`: the choices of facts that some actions need;
* `Survey.backchained`: the draft of all landmarks that are found so.
-/

namespace Waymark.Landmark

open Ground

variable {κ : Type}

/-- The greatest number of facts in a choice. -/
def maxChoice : Nat := 4

/-- The predicate of an atom, read off its name. -/
def predicateOf (atom : String) : String :=
  let inner := (atom.toList.dropWhile (· = '(')).reverse.dropWhile (· = ')')
  match Text.words inner.reverse with
  | word :: _ => String.ofList word
  | [] => ""

namespace Survey

/-- The facts that all of some actions need, in ascending order. -/
def sharedNeeds (s : Survey κ) : List Nat → List Nat
  | [] => []
  | a :: rest => ascending ((s.needs a).filter fun f => rest.all fun b => (s.needs b).contains f)

/-- The facts of a predicate that an action needs, besides those in `shared`. -/
def needsOf (s : Survey κ) (shared : List Nat) (predicate : String) (action : Nat) : List Nat :=
  (s.needs action).filter fun f =>
    !shared.contains f && predicateOf (s.task.facts.name f) == predicate

/-- The predicates of what some actions need besides `shared`, in ascending order. -/
def predicates (s : Survey κ) (shared actions : List Nat) : List String :=
  let names := actions.flatMap fun a =>
    ((s.needs a).filter (!shared.contains ·)).map fun f => predicateOf (s.task.facts.name f)
  (names.mergeSort fun x y => !(y < x)).eraseReps

/-- The choices of facts of one predicate such that each of the actions needs one of them. -/
def choices (s : Survey κ) (shared actions : List Nat) : List (List Nat) :=
  (s.predicates shared actions).filterMap fun predicate =>
    let needed := actions.map (s.needsOf shared predicate)
    let facts := ascending needed.flatten
    if needed.all (!·.isEmpty) && 2 ≤ facts.length && facts.length ≤ maxChoice then some facts
    else none

/-- Adds the facts that all first achievers of a landmark need, and returns the new ones. -/
def addShared (s : Survey κ) (current : Nat) (d : Draft) : List Nat → Draft × List Nat
  | [] => (d, [])
  | f :: fs =>
    if s.task.isInitial f then s.addShared current d fs
    else
      let (d, place, isNew) := d.add [f] .fact
      let (d, places) := s.addShared current (s.order d place current .greedyNecessary) fs
      (d, if isNew then place :: places else places)

/-- Adds the choices of facts that the first achievers of a landmark need. -/
def addChoices (s : Survey κ) (current : Nat) (d : Draft) (choices : List (List Nat)) : Draft :=
  choices.foldl (fun d facts =>
    if facts.any fun f => s.task.isInitial f || d.hasFact f then d
    else
      let (d, place, _) := d.add facts .disjunctive
      s.order d place current .greedyNecessary) d

/-- Adds what is found from a landmark, and returns the new landmarks to go on from. -/
def expand (s : Survey κ) (d : Draft) (current : Nat) : Draft × List Nat :=
  let facts := d.facts current
  if facts.all s.task.isInitial then (d, [])
  else
    let achievers := s.firstAchievers facts
    if achievers.isEmpty then (d, [])
    else
      let shared := s.sharedNeeds achievers
      let (d, places) := s.addShared current d shared
      (s.addChoices current d (s.choices shared achievers), places)

/-- Goes on from the landmarks that wait. Each fact waits at most once, goals aside, which bounds the
number of steps. -/
def backchainFrom (s : Survey κ) : Nat → Draft → List Nat → Draft
  | 0, d, _ => d
  | _, d, [] => d
  | steps + 1, d, current :: waiting =>
    let (d, places) := s.expand d current
    s.backchainFrom steps d (waiting ++ places)

/-- The places of the goals in a draft that holds them. -/
def goalPlaces (s : Survey κ) : Draft × List Nat :=
  s.task.goalNeeds.foldl (fun (d, places) g =>
    let (d, place, _) := d.add [g] .fact
    (d, places ++ [place])) ({}, [])

/-- The draft of all landmarks that are found from the goals. -/
def backchained (s : Survey κ) : Draft :=
  let (d, places) := s.goalPlaces
  s.backchainFrom (s.task.goalNeeds.length + s.task.facts.size) d places

end Survey

end Waymark.Landmark
