import Waymark.Landmark.Draft

/-!
# Landmarks by labels

Every fact has a label: the facts that hold at some point on every relaxed way to it. An initial fact is
alone in its label. Any other fact is in its label with what is in the labels of all actions that add it,
the label of an action being what is in the labels of the facts it needs. Labels shrink until no action
changes one.

* `FactSet`: sets of facts as the bits of a number;
* `Labels.sweep`: one round over all actions;
* `Survey.labelled`: the draft of the facts in the labels of the goals.
-/

namespace Waymark.Landmark

open Ground

variable {κ : Type}

/-- A set of facts. -/
structure FactSet where
  mask : Nat
  deriving DecidableEq, Repr, Inhabited

namespace FactSet

/-- The set without facts. -/
def empty : FactSet := ⟨0⟩

/-- The set of one fact. -/
def singleton (fact : Nat) : FactSet := ⟨1 <<< fact⟩

/-- The fact is in the set. -/
def contains (x : FactSet) (fact : Nat) : Bool := x.mask.testBit fact

/-- What is in one of two sets. -/
def union (x y : FactSet) : FactSet := ⟨x.mask ||| y.mask⟩

/-- What is in both of two sets. -/
def inter (x y : FactSet) : FactSet := ⟨x.mask &&& y.mask⟩

/-- The set with one more fact. -/
def insert (x : FactSet) (fact : Nat) : FactSet := x.union (singleton fact)

end FactSet

/-- For each fact its label, none if no action that adds it has been met. -/
abbrev Labels := Array (Option FactSet)

namespace Labels

/-- The labels of the initial facts. -/
def initial (t : Ground.Task κ) : Labels :=
  t.init.foldl (fun ls f => ls.setIfInBounds f (some (.singleton f)))
    (Array.replicate t.facts.size none)

/-- The label of a fact, none if it has none yet. -/
def of (labels : Labels) (fact : Nat) : Option FactSet := labels.getD fact none

/-- What is in one of the labels of facts, none if one of them has no label yet. -/
def unionOf (labels : Labels) : List Nat → Option FactSet
  | [] => some .empty
  | f :: fs => do
    let x ← labels.of f
    let y ← labels.unionOf fs
    return x.union y

/-- The label of a fact after an action with the label `cause` adds it. -/
def narrowed (labels : Labels) (fact : Nat) (cause : FactSet) : FactSet :=
  match labels.of fact with
  | none => cause.insert fact
  | some old => (old.inter (cause.insert fact)).insert fact

/-- The labels after an action with the label `cause` adds a fact, and whether they changed. -/
def addFact (labels : Labels) (cause : FactSet) (fact : Nat) : Labels × Bool :=
  let next := labels.narrowed fact cause
  if labels.of fact = some next then (labels, false)
  else (labels.setIfInBounds fact (some next), true)

/-- The facts that an action adds, each with the label of what adds it. -/
def causes (labels : Labels) (a : Action κ) : List (FactSet × Nat) :=
  match labels.unionOf a.needs with
  | none => []
  | some needs =>
    a.adds.map (needs, ·) ++ a.conditional.flatMap fun e =>
      match labels.unionOf e.needs with
      | none => []
      | some condition => e.adds.map (needs.union condition, ·)

/-- The labels after an action, and whether they changed now or before. -/
def addAction (labels : Labels × Bool) (a : Action κ) : Labels × Bool :=
  (causes labels.1 a).foldl (fun (ls, changed) (cause, fact) =>
    let (ls, now) := ls.addFact cause fact
    (ls, changed || now)) labels

/-- The labels after all actions, and whether they changed. -/
def sweep (t : Ground.Task κ) (labels : Labels) : Labels × Bool :=
  t.actions.foldl addAction (labels, false)

/-- Sweeps until nothing changes. -/
def settle (t : Ground.Task κ) : Nat → Labels → Labels
  | 0, labels => labels
  | rounds + 1, labels =>
    match sweep t labels with
    | (labels, true) => settle t rounds labels
    | (labels, false) => labels

/-- The labels that no action changes. Every round but the last gives a fact its label or makes one
smaller, which bounds their number by the square of the number of facts. -/
def final (t : Ground.Task κ) : Labels :=
  settle t (t.facts.size * (t.facts.size + 1) + 1) (initial t)

end Labels

/-- The draft of the facts in the labels of the goals. -/
def Survey.labelled (s : Survey κ) : Draft :=
  let labels := Labels.final s.task
  let facts := (List.range s.task.facts.size).filter fun f =>
    s.keeps f && s.task.goalNeeds.any fun g => (labels.of g).any (·.contains f)
  let d := facts.foldl (fun (d : Draft) f => d.including [f] .fact) {}
  facts.zipIdx.foldl (fun d (fact, second) =>
    facts.zipIdx.foldl (fun d (before, first) =>
      if (labels.of fact).any (·.contains before) then s.order d first second .natural
      else d) d) d

end Waymark.Landmark
